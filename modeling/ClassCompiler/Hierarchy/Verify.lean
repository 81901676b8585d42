import ClassCompiler.Hierarchy.Declare

/-!
# Verifying the hierarchy

The rules are checked in a fixed order, and the first violation is reported:
every type is declared (unless undeclared types are allowed); what a type
extends and implements is of the right kind; no type is its own ancestor; and
the methods of each type agree among themselves and with those of the types it
extends, ancestors before descendants.

The two depth-first passes count down the length of the path they are on. No
type occurs twice on a path without being reported, so a count above the number
of types never runs out.

Key definitions: `Graph.checkResolved`, `Graph.checkKinds`, `Graph.checkAcyclic`,
`Graph.checkMethods`, `Graph.verify`, `Graph.declareAndVerify`.
-/

namespace ClassCompiler
namespace Graph

/-- The first of a list of checks that fails. -/
def checkEach (check : α → Except Violation Unit) : List α → Except Violation Unit
  | [] => .ok ()
  | a :: as =>
    match check a with
    | .error v => .error v
    | .ok () => checkEach check as

/-- No live type is undeclared. -/
def checkResolved (g : Graph) : Except Violation Unit :=
  match g.placeholders with
  | [] => .ok ()
  | id :: _ =>
    let referencedBy := match (g.node id).children with
      | [] => ""
      | c :: _ => (g.node c).name
    .error (.unresolvedType (g.node id).name referencedBy)

/-- A class extends a class that is not final, an interface an interface. An
undeclared type may be either. -/
def checkExtended (n parent : TypeNode) : Except Violation Unit :=
  if n.isClass then
    if parent.isInterface then .error (.classExtendsInterface n.name parent.name)
    else if parent.isFinal then .error (.extendsFinalClass n.name parent.name)
    else .ok ()
  else if n.isInterface && parent.isClass then
    .error (.interfaceExtendsClass n.name parent.name)
  else .ok ()

/-- What a class implements is not a class. -/
def checkImplemented (n parent : TypeNode) : Except Violation Unit :=
  if parent.isClass then .error (.implementsClass n.name parent.name) else .ok ()

/-- The parents of a type are of the right kind. -/
def checkParents (g : Graph) (n : TypeNode) : Except Violation Unit := do
  checkEach (fun p => checkExtended n (g.node p)) n.extended
  checkEach (fun p => checkImplemented n (g.node p)) n.implemented

/-- The parents of all declared types are of the right kind. -/
def checkKinds (g : Graph) : Except Violation Unit :=
  checkEach (fun id => g.checkParents (g.node id))
    (g.ids.filter fun id => !(g.node id).isPlaceholder)

/-- Go through the descendants of a type in depth. The answer is the types
visited so far, or the first type that is met again on the path to itself. -/
def findCycle (g : Graph) : Nat → List TypeId → List TypeId → TypeId → Except TypeId (List TypeId)
  | 0, _, visited, _ => .ok visited
  | depth + 1, path, visited, id =>
    if path.contains id then .error id
    else if visited.contains id then .ok visited
    else
      (g.node id).children.foldlM
        (fun visited c => g.findCycle depth (id :: path) visited c) (id :: visited)

/-- No type is among its own descendants. -/
def checkAcyclic (g : Graph) : Except Violation Unit :=
  match g.ids.foldlM (fun visited id => g.findCycle (g.nodes.length + 1) [] visited id) [] with
  | .error id => .error (.cycle (g.node id).name)
  | .ok _ => .ok ()

/-- The methods of a type that come after `earlier`: no signature is declared
twice, and only an abstract class or an interface has abstract methods. -/
def checkOwnMethods (n : TypeNode) (earlier : List Method) : List Method → Except Violation Unit
  | [] => .ok ()
  | m :: ms =>
    if earlier.any fun o => o.signature = m.signature then
      .error (.duplicateMethod n.name m.signature)
    else if m.has .isAbstract && !(n.isAbstract || n.isInterface) then
      .error (.abstractMethodInConcreteClass n.name m.signature)
    else checkOwnMethods n (earlier ++ [m]) ms

/-- A method may stand in for an inherited one of the same signature: it
returns the same, neither or both are static, it is not less visible, and the
inherited one is not final. -/
def checkReplacement (n : TypeNode) (inherited m : Method) : Except Violation Unit :=
  if inherited.signature ≠ m.signature then .ok ()
  else if inherited.returnType ≠ m.returnType then
    .error (.returnTypeMismatch n.name m.signature inherited)
  else if inherited.has .isStatic && !m.has .isStatic then
    .error (.instanceReplacesStatic n.name m.signature inherited)
  else if !inherited.has .isStatic && m.has .isStatic then
    .error (.staticReplacesInstance n.name m.signature inherited)
  else if inherited.has .isPublic && m.has .isProtected then
    .error (.reducedVisibility n.name m.signature inherited)
  else if inherited.has .isFinal then
    .error (.replacesFinal n.name m.signature inherited)
  else .ok ()

/-- The methods seen at the types verified so far: inherited, then own. -/
abbrev Seen := List (TypeId × List Method)

/-- The methods seen at the given types, each declaration once. -/
def inheritedMethods (seen : Seen) (parents : List TypeId) : List Method :=
  (parents.flatMap fun p => (seen.lookup p).getD []).foldl
    (fun acc m =>
      if acc.any fun o => o.owner = m.owner && o.signature = m.signature then acc
      else acc ++ [m]) []

/-- Verify the methods of a type after those of the types it extends. -/
def checkMethodsOf (g : Graph) : Nat → Seen → TypeId → Except Violation Seen
  | 0, seen, _ => .ok seen
  | depth + 1, seen, id =>
    if (seen.lookup id).isSome then .ok seen
    else do
      let n := g.node id
      let seen ← n.extended.foldlM (fun seen p => g.checkMethodsOf depth seen p) seen
      let inherited := inheritedMethods seen n.extended
      checkOwnMethods n [] n.methods
      checkEach (fun o => checkEach (checkReplacement n o) n.methods) inherited
      return (id, inherited ++ n.methods) :: seen

/-- The methods of all types agree. -/
def checkMethods (g : Graph) : Except Violation Unit := do
  let _ ← g.ids.foldlM (fun seen id => g.checkMethodsOf (g.nodes.length + 1) seen id) []
  return ()

/-- All rules in their order. -/
def verify (g : Graph) (allowUnresolved : Bool) : Except Violation Unit := do
  if !allowUnresolved then g.checkResolved
  g.checkKinds
  g.checkAcyclic
  g.checkMethods

/-- Enter the types of units into a graph and verify the whole of it. -/
def declareAndVerify (g : Graph) (allowUnresolved : Bool) (us : List CompilationUnit) :
    Graph × Except Error Unit :=
  match g.declareAll us with
  | (g', .error e) => (g', .error e)
  | (g', .ok ()) => (g', (g'.verify allowUnresolved).mapError .hierarchy)

end Graph
end ClassCompiler
