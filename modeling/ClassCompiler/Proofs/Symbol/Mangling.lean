import ClassCompiler.Proofs.Text.Names
import ClassCompiler.Symbol
import Mathlib.Data.List.Chain
import Mathlib.Data.List.Nodup

/-!
# What symbols stand for

Two different things never get one symbol. A mangled name can be read back: an
underscore before a digit is an escape and any other is a dot, because no
identifier starts with a digit. A dollar sign is always escaped in a name, so
the first one in the symbol of a routine ends its name and each further one
ends a parameter. All other symbols start with two underscores, which no
mangled name does. The files of units are named by mangled names as well, and
the file of the tables starts with two underscores.

Key definitions: `Symbol.unmangle`, `Referent`, `Referent.symbol`, `Referent.isWellNamed`,
`Referent.IsNamed`.

Key theorems: `Symbol.mangle_inj`, `Symbol.parameters_inj`, `Referent.symbol_inj`,
`Symbol.mangling_keeps_apart`.
-/

namespace ClassCompiler
namespace Symbol

/-! ### Names -/

/-- The name that was mangled. -/
def unmangle : List Char → List Char
  | '_' :: '0' :: cs => '_' :: unmangle cs
  | '_' :: '1' :: cs => '$' :: unmangle cs
  | '_' :: cs => '.' :: unmangle cs
  | c :: cs => c :: unmangle cs
  | [] => []

theorem toList_mangle (name : String) : (mangle name).toList = name.toList.flatMap mangleChar :=
  String.toList_ofList

theorem mangle_append (a b : String) : mangle (a ++ b) = mangle a ++ mangle b := by
  simp [mangle]

/-- A mangled text starts with a digit only if the text does. -/
theorem flatMap_mangleChar_ne {cs rest : List Char} {d : Char} (hd : d.isDigit = true)
    (h : ∀ c ∈ cs.head?, c.isDigit = false) : cs.flatMap mangleChar ≠ d :: rest := by
  cases cs with
  | nil => simp
  | cons c cs =>
    have hc : c.isDigit = false := h c rfl
    intro he
    have hdc : d = c ∨ d = '_' := by
      rw [List.flatMap_cons] at he
      unfold mangleChar at he
      grind
    rcases hdc with rfl | rfl
    · rw [hc] at hd
      cases hd
    · cases hd

theorem unmangle_flatMap : ∀ {cs : List Char},
    (cs.IsChain fun a b => a = '.' → b.isDigit = false) → unmangle (cs.flatMap mangleChar) = cs
  | [], _ => rfl
  | c :: cs, h => by
    obtain ⟨hnext, htail⟩ := List.isChain_cons.mp h
    have ih := unmangle_flatMap htail
    rw [List.flatMap_cons]
    by_cases hdot : c = '.'
    · subst hdot
      have hhead : ∀ d ∈ cs.head?, d.isDigit = false := fun d hd => hnext d hd rfl
      show unmangle ('_' :: cs.flatMap mangleChar) = _
      rw [unmangle, ih]
      · exact fun r => flatMap_mangleChar_ne rfl hhead
      · exact fun r => flatMap_mangleChar_ne rfl hhead
    · by_cases hu : c = '_'
      · subst hu
        show unmangle ('_' :: '0' :: cs.flatMap mangleChar) = _
        rw [unmangle, ih]
      · by_cases hs : c = '$'
        · subst hs
          show unmangle ('_' :: '1' :: cs.flatMap mangleChar) = _
          rw [unmangle, ih]
        · have hplain : mangleChar c = [c] := by simp [mangleChar, hdot, hu, hs]
          rw [hplain, List.singleton_append, unmangle, ih]
          · simp [hu]
          · simp [hu]
          · simp [hu]

/-- A qualified name can be read off its mangled form. -/
theorem mangle_inj {name name' : String} (h : Text.isQualified name = true)
    (h' : Text.isQualified name' = true) (he : mangle name = mangle name') : name = name' := by
  have hlists : name.toList.flatMap mangleChar = name'.toList.flatMap mangleChar := by
    rw [← toList_mangle, ← toList_mangle, he]
  have := congrArg unmangle hlists
  rw [unmangle_flatMap (Text.isChain_of_isQualified h),
    unmangle_flatMap (Text.isChain_of_isQualified h')] at this
  exact String.toList_inj.mp this

theorem mem_mangle {c : Char} {name : String} (h : c ∈ (mangle name).toList) :
    c = '_' ∨ c = '0' ∨ c = '1' ∨ (c ∈ name.toList ∧ c ≠ '$') := by
  rw [toList_mangle] at h
  obtain ⟨d, hd, hc⟩ := List.mem_flatMap.mp h
  unfold mangleChar at hc
  grind

/-- Two underscores at the start are left to other symbols. -/
theorem mangle_append_ne_reserved {name : String} (h : Text.isQualified name = true)
    (cs rest : List Char) : (mangle name).toList ++ cs ≠ '_' :: '_' :: rest := by
  obtain ⟨c, tail, hname, hdot⟩ := Text.head_of_isQualified h
  rw [toList_mangle, hname, List.flatMap_cons]
  unfold mangleChar
  grind

/-! ### Parameters -/

/-- What a separator ends is determined, if the separator does not occur in it. -/
theorem append_inj_of_notMem {sep : Char} : ∀ {as bs as' bs' : List Char}, sep ∉ as → sep ∉ as' →
    (∀ b ∈ bs.head?, b = sep) → (∀ b ∈ bs'.head?, b = sep) → as ++ bs = as' ++ bs' →
    as = as' ∧ bs = bs'
  | [], bs, [], bs', _, _, _, _, he => ⟨rfl, he⟩
  | [], bs, a' :: as', bs', _, ha', hb, _, he => by
    have : a' = sep := hb a' (by rw [← List.nil_append bs, he]; rfl)
    exact absurd (this ▸ List.mem_cons_self) ha'
  | a :: as, bs, [], bs', ha, _, _, hb', he => by
    have : a = sep := hb' a (by rw [← List.nil_append bs', ← he]; rfl)
    exact absurd (this ▸ List.mem_cons_self) ha
  | a :: as, bs, a' :: as', bs', ha, ha', hb, hb', he => by
    obtain ⟨rfl, htail⟩ := List.cons.inj he
    obtain ⟨rfl, rfl⟩ := append_inj_of_notMem (List.not_mem_of_not_mem_cons ha)
      (List.not_mem_of_not_mem_cons ha') hb hb' htail
    exact ⟨rfl, rfl⟩

/-- A parameter type, without the dollar sign that sets it off. -/
def parameter (p : ParameterType) : List Char :=
  (mangle p.typeName).toList ++ if p.isArray then ['@'] else []

theorem toList_parameters (ps : List ParameterType) :
    (parameters ps).toList = ps.flatMap fun p => '$' :: parameter p := by
  rw [parameters, String.toList_join, List.flatMap_map]
  congr 1
  funext p
  rcases p with ⟨name, _ | _⟩ <;> simp [parameter]

theorem head?_parameters (ps : List ParameterType) : ∀ c ∈ (parameters ps).toList.head?, c = '$' := by
  rw [toList_parameters]
  cases ps <;> simp

end Symbol

/-- A parameter type whose symbol can be read back. -/
def ParameterType.isWellNamed (p : ParameterType) : Bool :=
  Text.isQualified p.typeName && !p.typeName.toList.contains '@'

theorem ParameterType.isWellNamed_iff {p : ParameterType} :
    p.isWellNamed = true ↔ Text.QualifiedName p.typeName := by
  rw [Text.qualifiedName_iff, ParameterType.isWellNamed]
  simp

namespace Symbol

theorem dollar_notMem_parameter (p : ParameterType) : '$' ∉ parameter p := by
  intro h
  rcases List.mem_append.mp h with h | h
  · have := mem_mangle h
    simp at this
  · split at h <;> simp at h

theorem parameter_inj {p q : ParameterType} (hp : p.isWellNamed = true) (hq : q.isWellNamed = true)
    (he : parameter p = parameter q) : p = q := by
  simp only [ParameterType.isWellNamed, Bool.and_eq_true, Bool.not_eq_true', List.contains_eq_mem,
    decide_eq_false_iff_not] at hp hq
  have hat : ∀ {t : String}, '@' ∉ t.toList → '@' ∉ (mangle t).toList := by
    intro t ht h
    have := mem_mangle h
    simp [ht] at this
  -- an at sign can only be the mark of an array
  obtain ⟨hname, hmark⟩ := append_inj_of_notMem (hat hp.2) (hat hq.2) (by split <;> simp)
    (by split <;> simp) he
  have harray : p.isArray = q.isArray := by
    rcases hpa : p.isArray <;> rcases hqa : q.isArray <;> simp [hpa, hqa] at hmark ⊢
  have htype := mangle_inj hp.1 hq.1 (String.toList_inj.mp hname)
  cases p
  cases q
  simp_all

theorem parameters_inj : ∀ {ps qs : List ParameterType}, (∀ p ∈ ps, p.isWellNamed = true) →
    (∀ q ∈ qs, q.isWellNamed = true) → parameters ps = parameters qs → ps = qs := by
  intro ps
  induction ps with
  | nil =>
    intro qs _ _ he
    have := congrArg String.toList he
    cases qs with
    | nil => rfl
    | cons q qs => simp [toList_parameters] at this
  | cons p ps ih =>
    intro qs hps hqs he
    have he := congrArg String.toList he
    cases qs with
    | nil => simp [toList_parameters] at he
    | cons q qs =>
      obtain ⟨hp, hps⟩ := List.forall_mem_cons.mp hps
      obtain ⟨hq, hqs⟩ := List.forall_mem_cons.mp hqs
      rw [toList_parameters, toList_parameters, List.flatMap_cons, List.flatMap_cons,
        List.cons_append, List.cons_append, ← toList_parameters, ← toList_parameters] at he
      obtain ⟨hfirst, hrest⟩ := append_inj_of_notMem (dollar_notMem_parameter p)
        (dollar_notMem_parameter q) (head?_parameters ps) (head?_parameters qs) (List.cons.inj he).2
      rw [parameter_inj hp hq hfirst, ih hps hqs (String.toList_inj.mp hrest)]

/-! ### Routines -/

/-- The symbol of a method is the mangled name of the method in its type. -/
theorem ofMethod_eq {owner : String} (h : owner ≠ "") (s : Signature) :
    ofMethod owner s = mangle (Text.qualify owner s.name) ++ parameters s.parameters := by
  have hdot : mangle "." = "_" := by decide
  simp only [ofMethod, Text.qualify, h, ↓reduceIte, mangle_append, hdot]

theorem mangle_append_inj {name name' : String} {ps ps' : List ParameterType}
    (hn : Text.isQualified name = true) (hn' : Text.isQualified name' = true)
    (hp : ∀ p ∈ ps, p.isWellNamed = true) (hp' : ∀ p ∈ ps', p.isWellNamed = true)
    (he : mangle name ++ parameters ps = mangle name' ++ parameters ps') : name = name' ∧ ps = ps' := by
  have hdollar : ∀ {t : String}, '$' ∉ (mangle t).toList := by
    intro t h
    have := mem_mangle h
    simp at this
  have he := congrArg String.toList he
  rw [String.toList_append, String.toList_append] at he
  obtain ⟨hname, hparameters⟩ :=
    append_inj_of_notMem hdollar hdollar (head?_parameters ps) (head?_parameters ps') he
  exact ⟨mangle_inj hn hn' (String.toList_inj.mp hname),
    parameters_inj hp hp' (String.toList_inj.mp hparameters)⟩

end Symbol

/-! ### All symbols -/

/-- What a symbol of generated code stands for. -/
inductive Referent where
  | method (owner : String) (signature : Signature)
  | ctor (owner : String) (parameters : List ParameterType)
  | vtable (className : String)
  | vtableInit (className : String)
  | temporary (number : Nat)
  | malloc
  | subtypeTable
  | selectorTable
  | tablesInit
deriving DecidableEq

namespace Referent

def symbol : Referent → String
  | .method owner s => Symbol.ofMethod owner s
  | .ctor owner ps => Symbol.ofConstructor owner ⟨owner, ps⟩
  | .vtable name => Symbol.vtable name
  | .vtableInit name => Symbol.vtableInit name
  | .temporary n => Symbol.temporary n
  | .malloc => Symbol.malloc
  | .subtypeTable => Symbol.subtypeTable
  | .selectorTable => Symbol.selectorTable
  | .tablesInit => Symbol.tablesInit

/-- The names in it are qualified, and that of a method is an identifier. -/
def isWellNamed : Referent → Bool
  | .method owner s => Text.isQualified owner && Text.isQualified s.name && !Text.isDotted s.name &&
      s.parameters.all (·.isWellNamed)
  | .ctor owner ps => Text.isQualified owner && ps.all (·.isWellNamed)
  | .vtable name | .vtableInit name => Text.isQualified name
  | _ => true

/-- The sorts of things that have symbols. -/
inductive Kind where
  | method | ctor | vtable | vtableInit | temporary | malloc | subtypeTable | selectorTable | tablesInit
deriving DecidableEq

def kind : Referent → Kind
  | .method .. => .method
  | .ctor .. => .ctor
  | .vtable _ => .vtable
  | .vtableInit _ => .vtableInit
  | .temporary _ => .temporary
  | .malloc => .malloc
  | .subtypeTable => .subtypeTable
  | .selectorTable => .selectorTable
  | .tablesInit => .tablesInit

/-- The kind of a symbol, read off its first characters. -/
def Kind.ofSymbol : List Char → Kind
  | '_' :: '_' :: 'c' :: _ => .ctor
  | '_' :: '_' :: 'v' :: _ => .vtable
  | '_' :: '_' :: 'i' :: 'n' :: 'i' :: 't' :: '_' :: 'v' :: _ => .vtableInit
  | '_' :: '_' :: 'i' :: _ => .tablesInit
  | '_' :: '_' :: 'L' :: _ => .temporary
  | '_' :: '_' :: 'm' :: _ => .malloc
  | '_' :: '_' :: 's' :: 'u' :: _ => .subtypeTable
  | '_' :: '_' :: 's' :: _ => .selectorTable
  | _ => .method

theorem ofSymbol_symbol {r : Referent} (h : r.isWellNamed = true) :
    Kind.ofSymbol r.symbol.toList = r.kind := by
  cases r with
  | method owner s =>
    simp only [isWellNamed, Bool.and_eq_true] at h
    have howner := Text.ne_empty_of_isQualified h.1.1.1
    have hname : Text.isQualified (Text.qualify owner s.name) = true := by
      rw [Text.isQualified_qualify howner, h.1.1.1, h.1.1.2]
      rfl
    have hfree := Symbol.mangle_append_ne_reserved hname (Symbol.parameters s.parameters).toList
    rw [symbol, Symbol.ofMethod_eq howner, String.toList_append, kind]
    generalize (Symbol.mangle _).toList ++ _ = cs at hfree
    unfold Kind.ofSymbol
    split <;> first | rfl | exact absurd rfl (hfree _)
  | _ =>
    simp [symbol, kind, Symbol.ofConstructor, Symbol.vtable, Symbol.vtableInit, Symbol.temporary,
      Symbol.malloc, Symbol.subtypeTable, Symbol.selectorTable, Symbol.tablesInit, Kind.ofSymbol]

/-- No two things have one symbol. -/
theorem symbol_inj {r r' : Referent} (h : r.isWellNamed = true) (h' : r'.isWellNamed = true)
    (he : r.symbol = r'.symbol) : r = r' := by
  have hkind : r.kind = r'.kind := by
    rw [← ofSymbol_symbol h, ← ofSymbol_symbol h', he]
  cases r with
  | method owner s =>
    cases r' with
    | method owner' s' =>
      simp only [isWellNamed, Bool.and_eq_true, Bool.not_eq_true', List.all_eq_true] at h h'
      have hne := Text.ne_empty_of_isQualified h.1.1.1
      have hne' := Text.ne_empty_of_isQualified h'.1.1.1
      simp only [symbol, Symbol.ofMethod_eq hne, Symbol.ofMethod_eq hne'] at he
      obtain ⟨hname, hparameters⟩ := Symbol.mangle_append_inj
        (by rw [Text.isQualified_qualify hne, h.1.1.1, h.1.1.2]; rfl)
        (by rw [Text.isQualified_qualify hne', h'.1.1.1, h'.1.1.2]; rfl) h.2 h'.2 he
      obtain ⟨rfl, hname⟩ := Text.qualify_inj h.1.2 h'.1.2 hname
      cases s
      cases s'
      simp_all
    | _ => cases hkind
  | ctor owner ps =>
    cases r' with
    | ctor owner' ps' =>
      simp only [isWellNamed, Bool.and_eq_true, List.all_eq_true] at h h'
      simp only [symbol, Symbol.ofConstructor, String.append_assoc, String.append_right_inj] at he
      obtain ⟨rfl, rfl⟩ := Symbol.mangle_append_inj h.1 h'.1 h.2 h'.2 he
      rfl
    | _ => cases hkind
  | vtable name =>
    cases r' with
    | vtable name' => rw [Symbol.mangle_inj h h' ((String.append_right_inj _).mp he)]
    | _ => cases hkind
  | vtableInit name =>
    cases r' with
    | vtableInit name' => rw [Symbol.mangle_inj h h' ((String.append_right_inj _).mp he)]
    | _ => cases hkind
  | temporary n =>
    cases r' with
    | temporary n' =>
      have hdigits : toString n = toString n' := (String.append_right_inj _).mp he
      rw [Nat.toString_eq_ofList_toDigits, Nat.toString_eq_ofList_toDigits, String.ofList_inj] at hdigits
      rw [← Nat.ofDigitChars_ten_toDigits (n := n), hdigits, Nat.ofDigitChars_ten_toDigits]
    | _ => cases hkind
  | malloc | subtypeTable | selectorTable | tablesInit => cases r' <;> first | rfl | cases hkind

/-- The types in it are given by qualified names, and a method by an identifier. -/
def IsNamed : Referent → Prop
  | .method owner s => Text.QualifiedName owner ∧ Text.Identifier s.name ∧
      ∀ p ∈ s.parameters, Text.QualifiedName p.typeName
  | .ctor owner ps => Text.QualifiedName owner ∧ ∀ p ∈ ps, Text.QualifiedName p.typeName
  | .vtable name | .vtableInit name => Text.QualifiedName name
  | _ => True

theorem IsNamed.isWellNamed {r : Referent} (h : r.IsNamed) : r.isWellNamed = true := by
  cases r with
  | method owner s =>
    obtain ⟨howner, hmethod, hparameters⟩ := h
    have hundotted : Text.isDotted s.name = false := by simpa [Text.isDotted] using hmethod.noDot
    simp only [Referent.isWellNamed, howner.isQualified, hmethod.isQualified, hundotted, List.all_eq_true,
      Bool.not_false, Bool.and_true, Bool.true_and]
    exact fun p hp => ParameterType.isWellNamed_iff.mpr (hparameters p hp)
  | ctor owner ps =>
    obtain ⟨howner, hparameters⟩ := h
    simp only [Referent.isWellNamed, howner.isQualified, List.all_eq_true, Bool.true_and]
    exact fun p hp => ParameterType.isWellNamed_iff.mpr (hparameters p hp)
  | vtable name | vtableInit name => exact Text.QualifiedName.isQualified h
  | temporary | malloc | subtypeTable | selectorTable | tablesInit => rfl

end Referent

namespace Symbol

/-- Two units have one file only if they have one name. -/
theorem unitFile_inj {q q' : String} (h : Text.isQualified q = true) (h' : Text.isQualified q' = true)
    (he : unitFile q = unitFile q') : q = q' :=
  mangle_inj h h' ((String.append_left_inj _).mp he)

theorem unitFile_ne_tablesFile {q : String} (h : Text.isQualified q = true) : unitFile q ≠ tablesFile := by
  intro he
  have hlist := congrArg String.toList he
  rw [unitFile, String.toList_append] at hlist
  exact mangle_append_ne_reserved h _ _ hlist

/-- Different qualified names, and different things that have symbols, are kept
apart by their symbols and files. Constructors count by their types alone. -/
theorem mangling_keeps_apart :
    (∀ name name', Text.QualifiedName name → Text.QualifiedName name' →
      (mangle name = mangle name' ↔ name = name')) ∧
    (∀ name, Text.QualifiedName name → ¬ "__".toList <+: (mangle name).toList) ∧
    (∀ r r' : Referent, r.IsNamed → r'.IsNamed → (r.symbol = r'.symbol ↔ r = r')) ∧
    (∀ owner s, ofConstructor owner s = (Referent.ctor owner s.parameters).symbol) ∧
    (∀ name name', Text.QualifiedName name → Text.QualifiedName name' →
      (unitFile name = unitFile name' ↔ name = name')) ∧
    ∀ name, Text.QualifiedName name → unitFile name ≠ tablesFile := by
  refine ⟨?_, ?_, ?_, fun _ _ => rfl, ?_, ?_⟩
  · intro name name' h h'
    exact ⟨mangle_inj h.isQualified h'.isQualified, congrArg _⟩
  · rintro name h ⟨rest, hrest⟩
    refine mangle_append_ne_reserved h.isQualified [] rest ?_
    rw [List.append_nil, ← hrest]
    rfl
  · intro r r' h h'
    exact ⟨Referent.symbol_inj h.isWellNamed h'.isWellNamed, congrArg _⟩
  · intro name name' h h'
    exact ⟨unitFile_inj h.isQualified h'.isQualified, congrArg _⟩
  · intro name h
    exact unitFile_ne_tablesFile h.isQualified

/-- Underscores on either side of a dot, and a dollar sign in a name that reads
like a parameter. -/
theorem mangling_keeps_boundaries_apart :
    (Text.QualifiedName "a_.b" ∧ Text.QualifiedName "a._b" ∧ mangle "a_.b" ≠ mangle "a._b") ∧
    (Referent.method "A" ⟨"m$int", []⟩).symbol ≠ (Referent.method "A" ⟨"m", [⟨"int", false⟩]⟩).symbol := by
  obtain ⟨hnames, -, hsymbols, -⟩ := mangling_keeps_apart
  have h : Text.QualifiedName "a_.b" := by decide
  have h' : Text.QualifiedName "a._b" := by decide
  refine ⟨⟨h, h', ?_⟩, ?_⟩
  · rw [ne_eq, hnames _ _ h h']
    decide
  · have hdollar : (Referent.method "A" ⟨"m$int", []⟩).IsNamed := ⟨by decide, by decide, by decide⟩
    have hparameter : (Referent.method "A" ⟨"m", [⟨"int", false⟩]⟩).IsNamed :=
      ⟨by decide, by decide, by decide⟩
    rw [ne_eq, hsymbols _ _ hdollar hparameter]
    decide

end Symbol
end ClassCompiler
