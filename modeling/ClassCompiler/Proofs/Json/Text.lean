import ClassCompiler.Json.Parser
import ClassCompiler.Json.Printer
import Mathlib.Data.Nat.Log

/-!
# The text of a value is read as that value

`Json.compact` writes a value on one line, and `Json.parse?` reads that text
back. It does so for every value of which every number is an integer of 64
bits, signed or unsigned (`Json.isSpellable`); a larger one would be read as a
number that is no integer.

The readers are stated with what follows the text: a text in quotes ends at its
quote, and a number ends where the rest does not go on with it
(`EndsNumber`). The two readers that call each other count down a bound, and
the length of the text is enough of it.

Key definitions: `Json.isSpellable`, `Json.EndsNumber`.
Key theorems: `Json.scanString_escape`, `Json.Numeral.scan_toDigits`, `Json.scanValue_compact`,
`Json.parse?_compact`.
-/

namespace ClassCompiler
namespace Json

mutual

/-- Whether every number of a value is an integer of 64 bits. -/
def isSpellable : Json → Bool
  | .int n => -0x8000000000000000 ≤ n && n < 0x10000000000000000
  | .decimal _ => false
  | .unreadable _ => false
  | .arr items => areSpellable items
  | .obj members => areSpellableMembers members
  | _ => true

def areSpellable : List Json → Bool
  | [] => true
  | j :: js => isSpellable j && areSpellable js

def areSpellableMembers : List (String × Json) → Bool
  | [] => true
  | (_, j) :: ms => isSpellable j && areSpellableMembers ms

end

/-! ### Texts in quotes -/

theorem hexDigit?_digitChar : ∀ d : Nat, d < 16 → hexDigit? d.digitChar = some d := by decide

theorem toList_hexPair {n : Nat} (h : n < 0x20) :
    (hexPair n).toList = [(n / 16).digitChar, (n % 16).digitChar] := by
  unfold hexPair Text.hex
  by_cases h16 : n < 16
  · rw [if_pos h16, Nat.toDigits_of_lt_base h16, Nat.div_eq_of_lt h16, Nat.mod_eq_of_lt h16]
    simp [Nat.digitChar]
  · have hdiv : n / 16 < 16 := by omega
    rw [if_neg h16, Nat.toDigits_eq_if (by decide), if_neg h16, Nat.toDigits_of_lt_base hdiv]
    simp

section Escapes

variable {c : Char} {rest after : List Char} {ps : List Piece}

/-- A character that is escaped by a letter is read back. -/
theorem scanPieces_letter {l : Char} (hl : letterEscape? l = some c) (hu : l ≠ 'u')
    (h : scanPieces rest = some (ps, after)) :
    scanPieces ('\\' :: l :: rest) = some (.char c :: ps, after) := by
  rw [scanPieces.eq_def]
  split <;> grind

/-- A control character is read back from its number. -/
theorem scanPieces_control (hc : c.toNat < 0x20) (h : scanPieces rest = some (ps, after)) :
    scanPieces ('\\' :: 'u' :: '0' :: '0' :: ((hexPair c.toNat).toList ++ rest))
      = some (.char c :: ps, after) := by
  have hzero : hexDigit? '0' = some 0 := by decide
  have hunit : hexUnit? '0' '0' (c.toNat / 16).digitChar (c.toNat % 16).digitChar
      = some c.toNat := by
    simp only [hexUnit?, hzero, hexDigit?_digitChar _ (show c.toNat / 16 < 16 by omega),
      hexDigit?_digitChar _ (show c.toNat % 16 < 16 by omega), Option.bind_eq_bind,
      Option.bind_some, Option.pure_def, Option.some.injEq]
    omega
  have hpiece : Piece.ofUnit c.toNat = .char c := by
    rw [Piece.ofUnit, if_neg (by simp; omega), Char.ofNat_toNat]
  simp [toList_hexPair hc, scanPieces, hunit, h, hpiece]

/-- A character is read back from its escaped form. -/
theorem scanPieces_escape (c : Char) (h : scanPieces rest = some (ps, after)) :
    scanPieces ((escape c).toList ++ rest) = some (.char c :: ps, after) := by
  unfold escape
  by_cases hquote : c = '"'
  · rw [if_pos hquote]
    exact scanPieces_letter (l := '"') (by rw [hquote]; rfl) (by decide) h
  rw [if_neg hquote]
  by_cases hback : c = '\\'
  · rw [if_pos hback]
    exact scanPieces_letter (l := '\\') (by rw [hback]; rfl) (by decide) h
  rw [if_neg hback]
  by_cases hline : c = '\n'
  · rw [if_pos hline]
    exact scanPieces_letter (l := 'n') (by rw [hline]; rfl) (by decide) h
  rw [if_neg hline]
  by_cases hreturn : c = '\r'
  · rw [if_pos hreturn]
    exact scanPieces_letter (l := 'r') (by rw [hreturn]; rfl) (by decide) h
  rw [if_neg hreturn]
  by_cases htab : c = '\t'
  · rw [if_pos htab]
    exact scanPieces_letter (l := 't') (by rw [htab]; rfl) (by decide) h
  rw [if_neg htab]
  by_cases hback8 : c.toNat = 8
  · rw [if_pos hback8]
    exact scanPieces_letter (l := 'b') (by rw [← Char.ofNat_toNat c, hback8]; rfl) (by decide) h
  rw [if_neg hback8]
  by_cases hfeed : c.toNat = 12
  · rw [if_pos hfeed]
    exact scanPieces_letter (l := 'f') (by rw [← Char.ofNat_toNat c, hfeed]; rfl) (by decide) h
  rw [if_neg hfeed]
  by_cases hcontrol : c.toNat < 0x20
  · rw [if_pos hcontrol, String.toList_append, List.append_assoc]
    exact scanPieces_control hcontrol h
  · have hplain : ¬ (c.toNat < 0x20 || c = '\\') = true := by simp [hcontrol, hback]
    rw [if_neg hcontrol, String.toList_ofList, List.singleton_append, scanPieces.eq_def]
    split <;> simp_all

end Escapes

theorem join?_map_char : ∀ cs : List Char, Piece.join? (cs.map .char) = some cs
  | [] => rfl
  | c :: cs => by simp [Piece.join?, join?_map_char cs]

/-- A text in quotes is read up to its closing quote. -/
theorem scanString_escape (cs rest : List Char) :
    scanString (cs.flatMap (fun c => (escape c).toList) ++ '"' :: rest) = some (some cs, rest) := by
  have hpieces : ∀ cs : List Char,
      scanPieces (cs.flatMap (fun c => (escape c).toList) ++ '"' :: rest)
        = some (cs.map .char, rest) := by
    intro cs
    induction cs with
    | nil => simp [scanPieces]
    | cons c cs ih =>
      rw [List.flatMap_cons, List.append_assoc, scanPieces_escape c ih, List.map_cons]
  unfold scanString
  rw [hpieces cs]
  simp [join?_map_char]

theorem toList_quoted (s : String) :
    (quoted s).toList = '"' :: s.toList.flatMap (fun c => (escape c).toList) ++ ['"'] := by
  simp [quoted, List.flatMap_map]

/-! ### Numbers -/

/-- The rest of a text does not go on with a number. -/
def EndsNumber (rest : List Char) : Prop :=
  ∀ c ∈ rest.head?, c.isDigit = false ∧ c ≠ '.' ∧ c ≠ 'e' ∧ c ≠ 'E'

namespace Numeral

theorem ofDigits_toDigits (m : Nat) : ofDigits (Nat.toDigits 10 m) = m := by
  have h : ofDigits = fun ds => Nat.ofDigitChars 10 ds 0 := by
    funext ds
    rw [Nat.ofDigitChars_eq_foldl]
    unfold ofDigits digit
    simp only [Nat.mul_comm]
  rw [h]
  exact Nat.ofDigitChars_ten_toDigits

theorem digitChar_ne_zero : ∀ d : Nat, d < 10 → 0 < d → d.digitChar ≠ '0' := by decide

/-- Only zero is written with a zero in front. -/
theorem head?_toDigits_ne_zero {m : Nat} (h : 0 < m) : (Nat.toDigits 10 m).head? ≠ some '0' := by
  induction m using Nat.strongRecOn with
  | ind m ih =>
    rw [Nat.toDigits_eq_if (by decide)]
    by_cases hm : m < 10
    · rw [if_pos hm]
      simpa using digitChar_ne_zero m hm h
    · rw [if_neg hm]
      have ih := ih (m / 10) (by omega) (by omega)
      cases hds : Nat.toDigits 10 (m / 10) with
      | nil => exact absurd hds Nat.toDigits_ne_nil
      | cons d ds => simpa [hds] using ih

theorem isDigit_of_mem_toDigits (m : Nat) : ∀ d ∈ Nat.toDigits 10 m, d.isDigit = true :=
  fun _ hd => Nat.isDigit_of_mem_toDigits (by decide) (by decide) hd

theorem exists_toDigits_eq_cons (m : Nat) :
    ∃ d ds, Nat.toDigits 10 m = d :: ds ∧ d.isDigit = true := by
  cases hds : Nat.toDigits 10 m with
  | nil => exact absurd hds Nat.toDigits_ne_nil
  | cons d ds => exact ⟨d, ds, rfl, isDigit_of_mem_toDigits m d (hds ▸ List.mem_cons_self)⟩

theorem digits_append {ds rest : List Char} (hds : ∀ d ∈ ds, d.isDigit = true)
    (hrest : EndsNumber rest) : digits (ds ++ rest) = (ds, rest) := by
  unfold digits
  rw [List.takeWhile_append_of_pos hds, List.dropWhile_append_of_pos hds]
  cases rest with
  | nil => simp
  | cons c rest => simp [(hrest c rfl).1]

theorem scanWhole_toDigits (m : Nat) {rest : List Char} (hrest : EndsNumber rest) :
    scanWhole (Nat.toDigits 10 m ++ rest) = some (Nat.toDigits 10 m, rest) := by
  have hdigits := digits_append (isDigit_of_mem_toDigits m) hrest
  rcases Nat.eq_zero_or_pos m with rfl | hm
  · rfl
  · obtain ⟨d, ds, hds, _⟩ := exists_toDigits_eq_cons m
    have hd : d ≠ '0' := by
      have := head?_toDigits_ne_zero hm
      simpa [hds] using this
    rw [hds] at hdigits ⊢
    unfold scanWhole
    split
    · rename_i heq
      exact absurd (List.cons.inj heq).1 hd
    · rw [hdigits]

theorem scanFraction_of_ends {rest : List Char} (hrest : EndsNumber rest) :
    scanFraction rest = some (none, rest) := by
  unfold scanFraction
  split
  · exact absurd rfl (hrest '.' rfl).2.1
  · rfl

theorem scanExponent_of_ends {rest : List Char} (hrest : EndsNumber rest) :
    scanExponent rest = some (none, rest) := by
  cases rest with
  | nil => rfl
  | cons c rest => simp [scanExponent, (hrest c rfl).2.2]

/-- The number that the digits of `m` make up, perhaps with a sign. -/
def ofNat (negative : Bool) (m : Nat) : Numeral :=
  ⟨negative, Nat.toDigits 10 m, none, none⟩

theorem scan_toDigits (m : Nat) {rest : List Char} (hrest : EndsNumber rest) :
    scan (Nat.toDigits 10 m ++ rest) = some (ofNat false m, rest) := by
  have hsign : ∀ cs, Nat.toDigits 10 m ++ rest ≠ '-' :: cs := by
    intro cs heq
    obtain ⟨d, ds, hds, hd⟩ := exists_toDigits_eq_cons m
    rw [hds, List.cons_append, List.cons.injEq] at heq
    simp [heq.1] at hd
  unfold scan
  split
  rename_i heq
  split at heq
  · exact absurd ‹_› (hsign _)
  · cases heq
    simp [scanWhole_toDigits m hrest, scanFraction_of_ends hrest, scanExponent_of_ends hrest, ofNat]

theorem scan_neg_toDigits (m : Nat) {rest : List Char} (hrest : EndsNumber rest) :
    scan ('-' :: (Nat.toDigits 10 m ++ rest)) = some (ofNat true m, rest) := by
  simp [scan, scanWhole_toDigits m hrest, scanFraction_of_ends hrest, scanExponent_of_ends hrest,
    ofNat]

theorem le_foldl_digits : ∀ (ds : List Char) (k : Nat),
    k ≤ ds.foldl (fun n d => n * 10 + digit d) k
  | [], _ => Nat.le_refl _
  | d :: ds, k => by
    have := le_foldl_digits ds (k * 10 + digit d)
    rw [List.foldl_cons]
    omega

/-- No digit of a number of 64 bits is left over. -/
theorem append_eq : ∀ (ds : List Char) (k : Nat),
    ds.foldl (fun n d => n * 10 + digit d) k < 0x10000000000000000 →
      append k ds = (ds.foldl (fun n d => n * 10 + digit d) k, 0)
  | [], _, _ => rfl
  | d :: ds, k, h => by
    rw [List.foldl_cons] at h ⊢
    have hle := le_foldl_digits ds (k * 10 + digit d)
    rw [append, if_pos (by omega), append_eq ds _ h]

theorem nearestDouble_le {m : Nat} (hm : m < 0x10000000000000000) :
    nearestDouble m ≤ m + 2048 := by
  have hunit : Nat.pow 2 (m.log2 - 52) ≤ 2 ^ 11 := by
    apply Nat.pow_le_pow_right (by decide)
    rcases Nat.eq_zero_or_pos m with rfl | h0
    · decide
    · have := (Nat.log2_lt (by omega)).mpr (show m < 2 ^ 64 from hm)
      omega
  have hdiv := Nat.div_mul_le_self m (Nat.pow 2 (m.log2 - 52))
  unfold nearestDouble
  simp only
  split
  · omega
  · rw [Nat.add_one_mul]
    omega

/-- A number of 64 bits is not too large. -/
theorem overflows_ofNat (negative : Bool) {m : Nat} (hm : m < 0x10000000000000000) :
    (ofNat negative m).overflows = false := by
  have happend : append 0 (Nat.toDigits 10 m) = (m, 0) := by
    have h := ofDigits_toDigits m
    unfold ofDigits at h
    rw [append_eq _ _ (by rwa [h]), h]
  have hscaled : (ofNat negative m).scaled = (m, 0) := by
    simp [scaled, ofNat, happend, append, writtenExponent]
  have hbound : 0x10000000000000800 ≤ doubleBound := by decide +kernel
  have hone : nearestDouble (Nat.pow 10 (0 : Int).toNat) = 1 := by decide
  have hlt : nearestDouble m < doubleBound := by
    have := nearestDouble_le hm
    omega
  simp only [overflows, hscaled, hone, Nat.mul_one]
  simp [hlt]

theorem value_ofNat {m : Nat} (hm : m < 0x10000000000000000) : (ofNat false m).value = .int m := by
  rw [value, overflows_ofNat false hm]
  simp [ofNat, ofDigits_toDigits, hm]

theorem value_ofNat_neg {m : Nat} (h0 : 0 < m) (hm : m ≤ 0x8000000000000000) :
    (ofNat true m).value = .int (-m) := by
  rw [value, overflows_ofNat true (by omega)]
  simp [ofNat, ofDigits_toDigits, h0, hm]

end Numeral

/-- What starts with a digit or a minus is a number. -/
theorem scanValue_of_scan {bound : Nat} {c : Char} {cs rest : List Char} {n : Numeral}
    (hc : c.isDigit = true ∨ c = '-') (hscan : Numeral.scan (c :: cs) = some (n, rest)) :
    scanValue (bound + 1) (c :: cs) = some (n.value, rest) := by
  unfold scanValue
  split <;> simp_all

theorem toList_compact_ofNat (m : Nat) :
    (compact (.int (.ofNat m))).toList = Nat.toDigits 10 m := by
  simp [compact, Int.toString_eq_repr, Int.repr, Nat.repr_eq_ofList_toDigits]

theorem toList_compact_negSucc (m : Nat) :
    (compact (.int (.negSucc m))).toList = '-' :: Nat.toDigits 10 (m + 1) := by
  simp [compact, Int.toString_eq_repr, Int.repr, Nat.repr_eq_ofList_toDigits]

/-- An integer of 64 bits is read back. -/
theorem scanValue_int {n : Int} {bound : Nat} {rest : List Char}
    (hn : (Json.int n).isSpellable = true) (hrest : EndsNumber rest) :
    scanValue (bound + 1) ((compact (.int n)).toList ++ rest) = some (.int n, rest) := by
  simp only [isSpellable, Bool.and_eq_true, decide_eq_true_eq] at hn
  cases n with
  | ofNat m =>
    have hm : m < 0x10000000000000000 := by
      have := hn.2
      simp only [Int.ofNat_eq_natCast] at this
      omega
    have hscan := Numeral.scan_toDigits m hrest
    obtain ⟨d, ds, hds, hd⟩ := Numeral.exists_toDigits_eq_cons m
    rw [hds, List.cons_append] at hscan
    rw [toList_compact_ofNat, hds, List.cons_append, scanValue_of_scan (.inl hd) hscan,
      Numeral.value_ofNat hm]
    rfl
  | negSucc m =>
    have hm : m + 1 ≤ 0x8000000000000000 := by
      have := hn.1
      omega
    have hscan := Numeral.scan_neg_toDigits (m + 1) hrest
    rw [toList_compact_negSucc, List.cons_append, scanValue_of_scan (.inr rfl) hscan,
      Numeral.value_ofNat_neg (Nat.succ_pos m) hm]
    rfl

/-! ### Values -/

theorem skipSpace_cons {c : Char} (h : isSpace c = false) (cs : List Char) :
    skipSpace (c :: cs) = c :: cs := by
  simp [skipSpace, h]

/-- The text of a value starts with a character that is neither white space
nor the end of a list. -/
theorem exists_head_compact {j : Json} (hj : j.isSpellable = true) :
    ∃ c cs, (compact j).toList = c :: cs ∧ isSpace c = false ∧ c ≠ ']' := by
  cases j with
  | null => exact ⟨'n', ['u', 'l', 'l'], by simp [compact], by decide, by decide⟩
  | bool b =>
    cases b with
    | false => exact ⟨'f', ['a', 'l', 's', 'e'], by simp [compact], by decide, by decide⟩
    | true => exact ⟨'t', ['r', 'u', 'e'], by simp [compact], by decide, by decide⟩
  | int n =>
    cases n with
    | ofNat m =>
      obtain ⟨d, ds, hds, hd⟩ := Numeral.exists_toDigits_eq_cons m
      refine ⟨d, ds, (toList_compact_ofNat m).trans hds, ?_, ?_⟩
      · by_contra hspace
        simp only [isSpace, Bool.not_eq_false, Bool.or_eq_true, decide_eq_true_eq] at hspace
        rcases hspace with ((rfl | rfl) | rfl) | rfl <;> simp at hd
      · rintro rfl
        simp at hd
    | negSucc m => exact ⟨'-', _, toList_compact_negSucc m, by decide, by decide⟩
  | decimal s => cases hj
  | unreadable s => cases hj
  | str s => exact ⟨'"', _, toList_quoted s, by decide, by decide⟩
  | arr items =>
    exact ⟨'[', (compactItems items).toList ++ [']'], by simp [compact], by decide, by decide⟩
  | obj members =>
    exact ⟨'\x7b', (compactMembers members).toList ++ ['\x7d'], by simp [compact], by decide,
      by decide⟩

theorem skipSpace_compact {j : Json} (hj : j.isSpellable = true) (cs : List Char) :
    skipSpace ((compact j).toList ++ cs) = (compact j).toList ++ cs := by
  obtain ⟨c, rest, hc, hspace, _⟩ := exists_head_compact hj
  rw [hc]
  exact skipSpace_cons hspace _

theorem length_compact_pos {j : Json} (hj : j.isSpellable = true) :
    0 < (compact j).toList.length := by
  obtain ⟨c, rest, hc, _⟩ := exists_head_compact hj
  simp [hc]

theorem toList_compactItems_cons (j i : Json) (js : List Json) :
    (compactItems (j :: i :: js)).toList
      = (compact j).toList ++ ',' :: (compactItems (i :: js)).toList := by
  simp [compactItems]

theorem toList_compactMembers_single (k : String) (j : Json) :
    (compactMembers [(k, j)]).toList = (quoted k).toList ++ ':' :: (compact j).toList := by
  simp [compactMembers]

theorem toList_compactMembers_cons (k : String) (j : Json) (m : String × Json)
    (ms : List (String × Json)) :
    (compactMembers ((k, j) :: m :: ms)).toList
      = (quoted k).toList ++
        ':' :: ((compact j).toList ++ ',' :: (compactMembers (m :: ms)).toList) := by
  simp [compactMembers]

theorem exists_head_compactItems {j : Json} (hj : j.isSpellable = true) (js : List Json) :
    ∃ c cs, (compactItems (j :: js)).toList = c :: cs ∧ isSpace c = false ∧ c ≠ ']' := by
  obtain ⟨c, rest, hc, hhead⟩ := exists_head_compact hj
  cases js with
  | nil => exact ⟨c, rest, hc, hhead⟩
  | cons i js => exact ⟨c, _, by rw [toList_compactItems_cons, hc, List.cons_append], hhead⟩

theorem exists_head_compactMembers (m : String × Json) (ms : List (String × Json)) :
    ∃ cs, (compactMembers (m :: ms)).toList = '"' :: cs := by
  obtain ⟨k, j⟩ := m
  cases ms with
  | nil => exact ⟨_, by rw [toList_compactMembers_single, toList_quoted, List.cons_append]; rfl⟩
  | cons m ms => exact ⟨_, by rw [toList_compactMembers_cons, toList_quoted, List.cons_append]; rfl⟩

/-- What follows an item of a list or a member of an object ends a number. -/
theorem endsNumber_cons {c : Char} (hc : c = ',' ∨ c = ']' ∨ c = '\x7d') (cs : List Char) :
    EndsNumber (c :: cs) := by
  intro d hd
  cases hd
  rcases hc with rfl | rfl | rfl <;> decide

section Steps

variable {bound : Nat} {c : Char} {cs more rest : List Char} {j : Json} {js : List Json}
  {key : String} {ms : List (String × Json)}

theorem scanValue_arr (hspace : isSpace c = false) (hc : c ≠ ']')
    (h : scanItems bound (c :: cs) = some (js, rest)) :
    scanValue (bound + 1) ('[' :: c :: cs) = some (.arr js, rest) := by
  simp only [scanValue, skipSpace_cons hspace]
  split <;> simp_all

theorem scanValue_obj (h : scanMembers bound ('"' :: cs) = some (some ms, rest)) :
    scanValue (bound + 1) ('\x7b' :: '"' :: cs) = some (.obj ms, rest) := by
  simp [scanValue, skipSpace, isSpace, h]

/-- A list is read if its items are. -/
theorem scanValue_compact_arr (hjs : areSpellable js = true)
    (h : js ≠ [] → scanItems bound ((compactItems js).toList ++ ']' :: rest) = some (js, rest)) :
    scanValue (bound + 1) ((compact (.arr js)).toList ++ rest) = some (.arr js, rest) := by
  have htext : (compact (.arr js)).toList ++ rest
      = '[' :: ((compactItems js).toList ++ ']' :: rest) := by simp [compact]
  rw [htext]
  cases js with
  | nil => simp [compactItems, scanValue, skipSpace, isSpace]
  | cons j js =>
    rw [areSpellable, Bool.and_eq_true] at hjs
    obtain ⟨c, cs, hc, hspace, hclose⟩ := exists_head_compactItems hjs.1 js
    have hscan := h (List.cons_ne_nil _ _)
    rw [hc] at hscan ⊢
    exact scanValue_arr hspace hclose hscan

/-- An object is read if its members are. -/
theorem scanValue_compact_obj
    (h : ms ≠ [] →
      scanMembers bound ((compactMembers ms).toList ++ '\x7d' :: rest) = some (some ms, rest)) :
    scanValue (bound + 1) ((compact (.obj ms)).toList ++ rest) = some (.obj ms, rest) := by
  have htext : (compact (.obj ms)).toList ++ rest
      = '\x7b' :: ((compactMembers ms).toList ++ '\x7d' :: rest) := by simp [compact]
  rw [htext]
  cases ms with
  | nil => simp [compactMembers, scanValue, skipSpace, isSpace]
  | cons m ms =>
    obtain ⟨cs, hc⟩ := exists_head_compactMembers m ms
    have hscan := h (List.cons_ne_nil _ _)
    rw [hc] at hscan ⊢
    exact scanValue_obj hscan

theorem scanItems_last (h : scanValue bound cs = some (j, ']' :: rest)) :
    scanItems (bound + 1) cs = some ([j], rest) := by
  simp [scanItems, h, skipSpace, isSpace]

theorem scanItems_more (h : scanValue bound cs = some (j, ',' :: more))
    (hspace : skipSpace more = more) (hmore : scanItems bound more = some (js, rest)) :
    scanItems (bound + 1) cs = some (j :: js, rest) := by
  have hcomma : skipSpace (',' :: more) = ',' :: more := skipSpace_cons (by decide) _
  simp [scanItems, h, hcomma, hspace, hmore]

theorem scanMembers_last (hspace : skipSpace cs = cs)
    (h : scanValue bound cs = some (j, '\x7d' :: rest)) :
    scanMembers (bound + 1) ((quoted key).toList ++ ':' :: cs) = some (some [(key, j)], rest) := by
  have hcolon : skipSpace (':' :: cs) = ':' :: cs := skipSpace_cons (by decide) _
  have hclose : skipSpace ('\x7d' :: rest) = '\x7d' :: rest := skipSpace_cons (by decide) _
  simp [toList_quoted, scanMembers, scanString_escape, hcolon, hspace, h, hclose]

theorem scanMembers_more (hspace : skipSpace cs = cs)
    (h : scanValue bound cs = some (j, ',' :: more)) (hmore' : skipSpace more = more)
    (hmore : scanMembers bound more = some (some ms, rest)) :
    scanMembers (bound + 1) ((quoted key).toList ++ ':' :: cs)
      = some (some ((key, j) :: ms), rest) := by
  have hcolon : skipSpace (':' :: cs) = ':' :: cs := skipSpace_cons (by decide) _
  have hcomma : skipSpace (',' :: more) = ',' :: more := skipSpace_cons (by decide) _
  simp [toList_quoted, scanMembers, scanString_escape, hcolon, hspace, h, hcomma, hmore', hmore]

end Steps

mutual

/-- The text of a value is read as the value, whatever follows it. -/
theorem scanValue_compact : ∀ (j : Json) {bound : Nat} {rest : List Char},
    j.isSpellable = true → EndsNumber rest → (compact j).toList.length ≤ bound + 1 →
      scanValue (bound + 1) ((compact j).toList ++ rest) = some (j, rest)
  | .null, _, _, _, _, _ => by simp [compact, scanValue]
  | .bool true, _, _, _, _, _ => by simp [compact, scanValue]
  | .bool false, _, _, _, _, _ => by simp [compact, scanValue]
  | .int n, _, _, hj, hrest, _ => scanValue_int hj hrest
  | .str s, _, _, _, _, _ => by simp [compact, toList_quoted, scanValue, scanString_escape]
  | .arr items, bound, rest, hj, _, hbound => by
    -- The two brackets leave one more step than the items need.
    have hlength : (compactItems items).toList.length + 1 ≤ bound := by
      simpa [compact] using hbound
    obtain ⟨b, rfl⟩ : ∃ b, bound = b + 1 := ⟨bound - 1, by omega⟩
    rw [isSpellable] at hj
    exact scanValue_compact_arr hj fun hne => scanItems_compact items hne hj (by omega)
  | .obj members, bound, rest, hj, _, hbound => by
    have hlength : (compactMembers members).toList.length + 1 ≤ bound := by
      simpa [compact] using hbound
    obtain ⟨b, rfl⟩ : ∃ b, bound = b + 1 := ⟨bound - 1, by omega⟩
    rw [isSpellable] at hj
    exact scanValue_compact_obj fun hne => scanMembers_compact members hne hj (by omega)

theorem scanItems_compact : ∀ (js : List Json) {bound : Nat} {rest : List Char},
    js ≠ [] → areSpellable js = true → (compactItems js).toList.length ≤ bound →
      scanItems (bound + 1) ((compactItems js).toList ++ ']' :: rest) = some (js, rest)
  | [], _, _, h, _, _ => absurd rfl h
  | j :: js, bound, rest, _, hjs, hbound => by
    rw [areSpellable, Bool.and_eq_true] at hjs
    have hpos := length_compact_pos hjs.1
    cases js with
    | nil =>
      rw [compactItems] at hbound ⊢
      obtain ⟨b, rfl⟩ : ∃ b, bound = b + 1 := ⟨bound - 1, by omega⟩
      exact scanItems_last (scanValue_compact j hjs.1 (endsNumber_cons (by simp) _) hbound)
    | cons i js =>
      rw [toList_compactItems_cons] at hbound ⊢
      rw [List.length_append, List.length_cons] at hbound
      obtain ⟨b, rfl⟩ : ∃ b, bound = b + 1 := ⟨bound - 1, by omega⟩
      have hi : i.isSpellable = true := by
        rw [areSpellable, Bool.and_eq_true] at hjs
        exact hjs.2.1
      obtain ⟨c, cs, hc, hspace, _⟩ := exists_head_compactItems hi js
      rw [List.append_assoc]
      refine scanItems_more (scanValue_compact j hjs.1 (endsNumber_cons (by simp) _) (by omega))
        ?_ (scanItems_compact (i :: js) (List.cons_ne_nil _ _) hjs.2 (by omega))
      rw [hc]
      exact skipSpace_cons hspace _

theorem scanMembers_compact : ∀ (ms : List (String × Json)) {bound : Nat} {rest : List Char},
    ms ≠ [] → areSpellableMembers ms = true → (compactMembers ms).toList.length ≤ bound →
      scanMembers (bound + 1) ((compactMembers ms).toList ++ '\x7d' :: rest) = some (some ms, rest)
  | [], _, _, h, _, _ => absurd rfl h
  | (k, j) :: ms, bound, rest, _, hms, hbound => by
    rw [areSpellableMembers, Bool.and_eq_true] at hms
    cases ms with
    | nil =>
      rw [toList_compactMembers_single] at hbound ⊢
      rw [List.length_append, List.length_cons] at hbound
      obtain ⟨b, rfl⟩ : ∃ b, bound = b + 1 := ⟨bound - 1, by omega⟩
      rw [List.append_assoc, List.cons_append]
      exact scanMembers_last (skipSpace_compact hms.1 _)
        (scanValue_compact j hms.1 (endsNumber_cons (by simp) _) (by omega))
    | cons m ms =>
      rw [toList_compactMembers_cons] at hbound ⊢
      rw [List.length_append, List.length_cons, List.length_append, List.length_cons] at hbound
      obtain ⟨b, rfl⟩ : ∃ b, bound = b + 1 := ⟨bound - 1, by omega⟩
      obtain ⟨cs, hc⟩ := exists_head_compactMembers m ms
      rw [List.append_assoc, List.cons_append, List.append_assoc]
      refine scanMembers_more (skipSpace_compact hms.1 _)
        (scanValue_compact j hms.1 (endsNumber_cons (by simp) _) (by omega)) ?_
        (scanMembers_compact (m :: ms) (List.cons_ne_nil _ _) hms.2 (by omega))
      rw [hc]
      exact skipSpace_cons (by decide) _

end

/-- What `compact` writes, `parse?` reads. -/
theorem parse?_compact {j : Json} (hj : j.isSpellable = true) : parse? j.compact = some j := by
  have hends : EndsNumber [] := fun c hc => by cases hc
  have hscan := scanValue_compact j hj hends (Nat.le_succ _)
  have hspace := skipSpace_compact hj []
  rw [List.append_nil] at hscan hspace
  have hnil : skipSpace [] = [] := rfl
  simp [parse?, hspace, hscan, hnil]

end Json
end ClassCompiler
