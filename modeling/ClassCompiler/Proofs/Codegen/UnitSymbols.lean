import ClassCompiler.Proofs.Codegen.Declarations
import ClassCompiler.Proofs.Codegen.Linkage
import ClassCompiler.Proofs.Dispatch.Overriding

/-!
# The symbols of a unit's file

The file of a class defines an entry point for each of its constructors and for
each of its methods that has a body, and the vtable of the class with the
routine that fills it. It exports all of them. A file of an interface has no
code. A method whose code could be generated without a body is abstract, or
static and native.

Key definitions: `Member.referent?`, `CompilationUnit.referents`, `CompilationUnit.isWellNamed`.

Key theorems: `CompilationUnit.code_of_gives` (what the file of a unit is made
of), `CompilationUnit.publishes_of_gives`, `CompilationUnit.exists_routine_of_gives`
(an instance method is in the file, unless it is abstract).
-/

namespace ClassCompiler

/-! ### Members -/

namespace ClassDecl

variable {c : ClassDecl}

theorem mem_methods {m : MethodDecl} : m ∈ c.methods ↔ .method m ∈ c.members := by
  rw [methods, List.mem_filterMap]
  constructor
  · rintro ⟨_ | m' | _, hm, he⟩ <;> cases he
    exact hm
  · exact fun hm => ⟨_, hm, rfl⟩

theorem mem_constructors {k : ConstructorDecl} : k ∈ c.constructors ↔ .ctor k ∈ c.members := by
  rw [constructors, List.mem_filterMap]
  constructor
  · rintro ⟨_ | _ | k', hk, he⟩ <;> cases he
    exact hk
  · exact fun hk => ⟨_, hk, rfl⟩

end ClassDecl

/-- What the code of a member defines, if it has code. -/
def Member.referent? (owner : String) : Member → Option Referent
  | .field _ => none
  | .method m => m.body.map fun _ => .method owner (Method.ofDecl owner m).signature
  | .ctor k => some (.ctor owner (Method.ofConstructor owner k).signature.parameters)

/-- What has an entry point: a method, by its signature, or a constructor, by
its parameter types. -/
theorem Member.referent?_cases {owner : String} {member : Member} {r : Referent}
    (h : member.referent? owner = some r) :
    (∃ m, member = .method m ∧ r = .method owner (Method.signatureOf m.name m.parameters)) ∨
      ∃ k, member = .ctor k ∧ r = .ctor owner (k.parameters.map fun p => .ofTypeRef p.type) := by
  cases member with
  | field f => cases h
  | method m =>
    obtain ⟨body, -, rfl⟩ := Option.map_eq_some_iff.mp h
    exact .inl ⟨m, rfl, rfl⟩
  | ctor k =>
    obtain rfl := Option.some.inj h
    exact .inr ⟨k, rfl, rfl⟩

theorem Member.referent?_symbol (owner : String) (member : Member) :
    (member.referent? owner).map (·.symbol) = (member.routine? owner).map (·.symbol) := by
  cases member with
  | field f => rfl
  | method m =>
    rw [referent?, routine?, Option.map_map, Option.map_map]
    rfl
  | ctor k => rfl

section
variable {owner : String} {n n' : Nat} {ls : Listing} {u : Unit}

theorem FieldDecl.gives_emit {f : FieldDecl} (h : f.emit.Gives n ls n' u) : ls = [] := by
  rw [FieldDecl.emit] at h
  split at h
  · exact absurd h Emit.gives_fail
  · exact (Emit.gives_pure.mp h).1

/-- The code of a method without a body is a remark. -/
theorem MethodDecl.gives_emitBodyless {m : MethodDecl} (h : (m.emitBodyless owner).Gives n ls n' u) :
    (m.has .isAbstract = true ∨ m.has .isStatic = true) ∧
      ls = [.blank, .header (Symbol.ofMethod owner (Method.ofDecl owner m).signature ++ " has no body")] := by
  unfold MethodDecl.emitBodyless at h
  simp only [Method.has_ofDecl] at h
  split at h
  · exact absurd h Emit.gives_fail
  · rename_i hnative
    split at h
    · exact absurd h Emit.gives_fail
    · rename_i hbody
      refine ⟨?_, (Emit.gives_lines.mp h).1⟩
      grind

/-- The code of a member is that of its routine, or defines nothing. -/
theorem Member.code_of_gives {member : Member} (h : (member.emit owner).Gives n ls n' u) :
    (∃ r, member.routine? owner = some r ∧ r.emit.Gives n ls n' ()) ∨
      member.routine? owner = none ∧ ls.Inner [] := by
  cases member with
  | field f =>
    obtain rfl := FieldDecl.gives_emit h
    exact .inr ⟨rfl, .nil⟩
  | method m =>
    rcases hb : m.body with _ | body
    · simp only [Member.emit, MethodDecl.emit, hb] at h
      obtain ⟨-, rfl⟩ := MethodDecl.gives_emitBodyless h
      exact .inr ⟨by rw [routine?, hb]; rfl, rfl, rfl, rfl, .of_references_eq_nil rfl⟩
    · have hr : (Member.method m).routine? owner = some (.ofMethod owner m body) := by
        rw [routine?, hb]
        rfl
      rw [Member.emit_of_routine? hr] at h
      exact .inl ⟨_, hr, h⟩
  | ctor k => exact .inl ⟨_, rfl, h⟩

theorem Member.publishes_of_gives {member : Member} (h : (member.emit owner).Gives n ls n' u) :
    ls.Publishes ((member.referent? owner).map (·.symbol)).toList := by
  rw [Member.referent?_symbol]
  rcases Member.code_of_gives h with ⟨r, hr, hcode⟩ | ⟨hr, hinner⟩
  · rw [hr]
    obtain ⟨hnames, hexports, -⟩ := Routine.names_of_gives hcode
    exact ⟨hnames, hexports⟩
  · rw [hr]
    exact hinner.publishes

/-- A member imports nothing and refers to nothing outside its own code. -/
theorem Member.imports_of_gives {member : Member} (h : (member.emit owner).Gives n ls n' u) :
    ls.imports = [] ∧ ls.RefersTo [] := by
  rcases Member.code_of_gives h with ⟨r, -, hcode⟩ | ⟨-, hinner⟩
  · exact ⟨(Routine.names_of_gives hcode).2.2, Routine.refersTo_of_gives hcode⟩
  · exact ⟨hinner.imports, hinner.refersTo⟩

end

/-! ### Units -/

/-- The code of members, one behind the other. -/
theorem Member.each_of_gives {owner : String} {x : Unit} : ∀ {members : List Member} {n n' : Nat}
    {ls : Listing}, (Emit.each (Member.emit owner) members).Gives n ls n' x →
    ls.Publishes ((members.filterMap (Member.referent? owner)).map (·.symbol)) ∧
      ls.imports = [] ∧ ls.RefersTo [] ∧
      ∀ m ∈ members, ∃ k k' code, (Member.emit owner m).Gives k code k' () ∧ code <:+: ls
  | [], n, n', ls, h => by
    obtain ⟨rfl, -, -⟩ := Emit.gives_pure.mp h
    exact ⟨⟨rfl, rfl⟩, rfl, nofun, nofun⟩
  | member :: members, n, n', ls, h => by
    obtain ⟨piece, k, _, rest, hm, hrest, rfl⟩ := Emit.gives_bind.mp h
    obtain ⟨himports, hrefs⟩ := Member.imports_of_gives hm
    obtain ⟨ihp, ihi, ihr, ihc⟩ := Member.each_of_gives hrest
    refine ⟨?_, ?_, hrefs.append ihr, ?_⟩
    · have hp := (Member.publishes_of_gives hm).append ihp
      rcases hr : member.referent? owner with _ | r
      · rw [hr] at hp
        rwa [List.filterMap_cons_none hr]
      · rw [hr] at hp
        rwa [List.filterMap_cons_some hr]
    · rw [Listing.imports_append, himports, ihi]
      rfl
    · intro m hmem
      rcases List.mem_cons.mp hmem with rfl | hmem
      · exact ⟨n, k, piece, hm, (List.prefix_append piece rest).isInfix⟩
      · obtain ⟨k, k', code, hcode, hin⟩ := ihc m hmem
        exact ⟨k, k', code, hcode, hin.trans (List.suffix_append piece rest).isInfix⟩

namespace CompilationUnit

/-- What the file of a unit defines, in order. -/
def referents (u : CompilationUnit) : List Referent :=
  match u.decl with
  | .ofClass c => c.members.filterMap (Member.referent? u.qualifiedName) ++
      [.vtable u.qualifiedName, .vtableInit u.qualifiedName]
  | .ofInterface _ => []

variable {layout : Layout} {u : CompilationUnit} {n n' : Nat} {ls : Listing} {x : Unit}

/-- The file of a unit: a remark, or the code of the members and the vtable. -/
theorem code_of_gives (h : (u.emit layout).Gives n ls n' x) :
    (∃ i, u.decl = .ofInterface i ∧
      ls = [.header u.qualifiedName, .segment ".text", .header "interface: no code"]) ∨
    ∃ c cl code k, u.decl = .ofClass c ∧ layout.class? u.qualifiedName = some cl ∧
      (Emit.each (Member.emit u.qualifiedName) c.members).Gives n code k () ∧
      ls = [.header u.qualifiedName, .segment ".text"] ++ (code ++ cl.vtableListing u.qualifiedName) := by
  rw [emit_eq] at h
  obtain ⟨code, hdecl, rfl⟩ := Emit.gives_lines_bind.mp h
  rcases hd : u.decl with c | i
  · rw [hd] at hdecl
    obtain ⟨members, k, _, vtable, hm, hv, rfl⟩ := Emit.gives_bind.mp hdecl
    rw [Layout.emitVtable] at hv
    split at hv
    · exact absurd hv Emit.gives_fail
    · rename_i cl hcl
      obtain ⟨rfl, -⟩ := Emit.gives_lines.mp hv
      exact .inr ⟨c, cl, members, k, rfl, hcl, hm, rfl⟩
  · rw [hd] at hdecl
    obtain ⟨rfl, -⟩ := Emit.gives_lines.mp hdecl
    exact .inl ⟨i, rfl, rfl⟩

/-- The file of a unit defines what it should, and exports all of it. -/
theorem publishes_of_gives (h : (u.emit layout).Gives n ls n' x) :
    ls.Publishes (u.referents.map (·.symbol)) := by
  rcases code_of_gives h with ⟨i, hd, rfl⟩ | ⟨c, cl, code, k, hd, hcl, hcode, rfl⟩
  · rw [referents, hd]
    exact ⟨rfl, rfl⟩
  · have hname : cl.name = u.qualifiedName := by simpa using List.find?_some hcl
    have hvtable := cl.publishes_vtableListing u.qualifiedName
    rw [hname] at hvtable
    have hhead : Listing.Publishes [] [.header u.qualifiedName, .segment ".text"] := ⟨rfl, rfl⟩
    simp only [referents, hd, List.map_append]
    exact hhead.append ((Member.each_of_gives hcode).1.append hvtable)

/-- A file imports what its vtable asks for, and nothing else. -/
theorem imports_file {owner : String} {c : ClassDecl} {cl : ClassLayout} {code : Listing} {k : Nat}
    (h : (Emit.each (Member.emit owner) c.members).Gives n code k ()) :
    Listing.imports ([.header owner, .segment ".text"] ++ (code ++ cl.vtableListing owner)) =
      (cl.vtableListing owner).imports := by
  have hhead : Listing.imports [.header owner, .segment ".text"] = [] := rfl
  rw [Listing.imports_append, Listing.imports_append, hhead, (Member.each_of_gives h).2.1,
    List.nil_append, List.nil_append]

theorem mem_imports_of_gives (h : (u.emit layout).Gives n ls n' x) {s : String} (hs : s ∈ ls.imports) :
    ∃ cl, layout.class? u.qualifiedName = some cl ∧
      (s = Symbol.malloc ∨ s ∈ cl.foreignLabels u.qualifiedName) := by
  rcases code_of_gives h with ⟨i, hd, rfl⟩ | ⟨c, cl, code, k, hd, hcl, hcode, rfl⟩
  · cases hs
  · refine ⟨cl, hcl, ?_⟩
    rwa [imports_file hcode, cl.mem_imports_vtableListing] at hs

/-- What the file of a unit refers to is defined in it, or is imported, or is
an entry of the vtable that the type itself owns. -/
theorem references_of_gives (h : (u.emit layout).Gives n ls n' x) {l : Label} (hl : l ∈ ls.references) :
    l ∈ ls.definitions ∨ (∃ s ∈ ls.imports, l = .symbol s) ∨
      ∃ cl, layout.class? u.qualifiedName = some cl ∧
        ∃ e ∈ cl.vtable, e.isAbstract = false ∧ e.owner = u.qualifiedName ∧ l = .symbol e.label := by
  rcases code_of_gives h with ⟨i, hd, rfl⟩ | ⟨c, cl, code, k, hd, hcl, hcode, rfl⟩
  · cases hl
  · have hname : cl.name = u.qualifiedName := by simpa using List.find?_some hcl
    obtain ⟨-, -, hrefs, -⟩ := Member.each_of_gives hcode
    have hhead : Listing.RefersTo cl.references [.header u.qualifiedName, .segment ".text"] :=
      .of_references_eq_nil rfl
    have hfile := hhead.append ((hrefs.mono (List.nil_subset _)).append
      (cl.refersTo_vtableListing u.qualifiedName))
    have hasked : ∀ {s}, s = Symbol.malloc ∨ s ∈ cl.foreignLabels u.qualifiedName →
        s ∈ Listing.imports ([.header u.qualifiedName, .segment ".text"] ++
          (code ++ cl.vtableListing u.qualifiedName)) := by
      intro s hs
      rwa [imports_file hcode, cl.mem_imports_vtableListing]
    rcases hfile l hl with hm | hm
    · exact .inl hm
    · rcases List.mem_cons.mp hm with rfl | hm
      · exact .inr (.inl ⟨_, hasked (.inl rfl), rfl⟩)
      · rcases List.mem_cons.mp hm with rfl | hm
        · -- the cell of the vtable is in the file
          refine .inl (Listing.mem_names.mp ?_)
          rw [(publishes_of_gives h).names, hname, referents, hd]
          simp [Referent.symbol]
        · obtain ⟨e, he, rfl⟩ := List.mem_map.mp hm
          obtain ⟨he, ha⟩ := List.mem_filter.mp he
          by_cases howner : e.owner = u.qualifiedName
          · exact .inr (.inr ⟨cl, hcl, e, he, by simpa using ha, howner, rfl⟩)
          · refine .inr (.inl ⟨e.label, hasked (.inr ?_), rfl⟩)
            exact List.mem_map.mpr ⟨e, List.mem_filter.mpr ⟨he, by simp_all⟩, rfl⟩

/-- An instance method that is not abstract has a body in the file of its unit. -/
theorem exists_routine_of_gives (h : (u.emit layout).Gives n ls n' x) {c : ClassDecl}
    (hd : u.decl = .ofClass c) {m : MethodDecl} (hm : m ∈ c.methods) (hs : m.has .isStatic = false)
    (ha : m.has .isAbstract = false) :
    ∃ member ∈ c.members, ∃ r, member.routine? u.qualifiedName = some r ∧
      r.symbol = Symbol.ofMethod u.qualifiedName (Method.ofDecl u.qualifiedName m).signature ∧
      .method u.qualifiedName (Method.ofDecl u.qualifiedName m).signature ∈ u.referents ∧
      ∃ k k' code, r.emit.Gives k code k' () ∧ code <:+: ls := by
  rcases code_of_gives h with ⟨i, hd', -⟩ | ⟨c', cl, code, k, hd', hcl, hcode, rfl⟩
  · cases hd.symm.trans hd'
  obtain rfl : c = c' := TypeDecl.ofClass.inj (hd.symm.trans hd')
  have hmember := ClassDecl.mem_methods.mp hm
  obtain ⟨k, k', piece, hpiece, hin⟩ := (Member.each_of_gives hcode).2.2.2 _ hmember
  rcases hb : m.body with _ | body
  · -- without a body there is no code
    simp only [Member.emit, MethodDecl.emit, hb] at hpiece
    rcases (MethodDecl.gives_emitBodyless hpiece).1 with h | h
    · cases ha.symm.trans h
    · cases hs.symm.trans h
  · have hr : (Member.method m).routine? u.qualifiedName = some (.ofMethod u.qualifiedName m body) := by
      rw [Member.routine?, hb]
      rfl
    rw [Member.emit_of_routine? hr] at hpiece
    have hreferent : (Member.method m).referent? u.qualifiedName =
        some (.method u.qualifiedName (Method.ofDecl u.qualifiedName m).signature) := by
      rw [Member.referent?, hb]
      rfl
    refine ⟨_, hmember, _, hr, rfl, ?_, k, k', piece, hpiece, ?_⟩
    · simp only [referents, hd]
      exact List.mem_append_left _ (List.mem_filterMap.mpr ⟨_, hmember, hreferent⟩)
    · exact hin.trans ((List.prefix_append _ _).isInfix.trans (List.suffix_append _ _).isInfix)

/-! ### Names -/

end CompilationUnit

/-- The type that something belongs to. -/
def Referent.owner? : Referent → Option String
  | .method owner _ | .ctor owner _ => some owner
  | .vtable name | .vtableInit name => some name
  | _ => none

namespace CompilationUnit

variable {u : CompilationUnit}

/-- The type is named by identifiers, with its package, and so are the methods
of a class and the types of their parameters. -/
def isWellNamed (u : CompilationUnit) : Bool :=
  Text.isQualified u.qualifiedName &&
  match u.decl with
  | .ofClass c =>
    c.methods.all (fun m => Text.isQualified m.name && !Text.isDotted m.name &&
      m.parameters.all fun p => (ParameterType.ofTypeRef p.type).isWellNamed) &&
    c.constructors.all fun k => k.parameters.all fun p => (ParameterType.ofTypeRef p.type).isWellNamed
  | .ofInterface _ => true

theorem isWellNamed_of_mem_referents (hu : u.isWellNamed = true) {r : Referent} (hr : r ∈ u.referents) :
    r.isWellNamed = true := by
  simp only [isWellNamed, Bool.and_eq_true] at hu
  obtain ⟨hname, hmembers⟩ := hu
  rcases hd : u.decl with c | i
  · simp only [hd, Bool.and_eq_true, List.all_eq_true] at hmembers
    simp only [referents, hd, List.mem_append, List.mem_cons, List.not_mem_nil, or_false] at hr
    rcases hr with hr | rfl | rfl
    · obtain ⟨member, hmember, hr⟩ := List.mem_filterMap.mp hr
      rcases Member.referent?_cases hr with ⟨m, rfl, rfl⟩ | ⟨k, rfl, rfl⟩
      · obtain ⟨hm, hp⟩ := hmembers.1 m (ClassDecl.mem_methods.mpr hmember)
        have hps := List.all_eq_true.mpr (List.forall_mem_map.mpr hp)
        simp only [Referent.isWellNamed, Bool.and_eq_true]
        exact ⟨⟨⟨hname, hm.1⟩, hm.2⟩, hps⟩
      · have hp := hmembers.2 k (ClassDecl.mem_constructors.mpr hmember)
        have hps := List.all_eq_true.mpr (List.forall_mem_map.mpr hp)
        simp only [Referent.isWellNamed, Bool.and_eq_true]
        exact ⟨hname, hps⟩
    · exact hname
    · exact hname
  · rw [referents, hd] at hr
    cases hr

/-- Whatever a file of a unit defines belongs to the type of the unit. -/
theorem owner?_of_mem_referents {r : Referent} (hr : r ∈ u.referents) :
    r.owner? = some u.qualifiedName := by
  rcases hd : u.decl with c | i
  · simp only [referents, hd, List.mem_append, List.mem_cons, List.not_mem_nil, or_false] at hr
    rcases hr with hr | rfl | rfl
    · obtain ⟨member, -, hr⟩ := List.mem_filterMap.mp hr
      rcases Member.referent?_cases hr with ⟨m, -, rfl⟩ | ⟨k, -, rfl⟩ <;> rfl
    · rfl
    · rfl
  · rw [referents, hd] at hr
    cases hr

end CompilationUnit
end ClassCompiler
