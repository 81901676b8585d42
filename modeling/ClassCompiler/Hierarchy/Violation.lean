import ClassCompiler.Member.Signature

/-!
# Violations of the hierarchy rules

One constructor for each rule that a program's types can break, with the types
and methods that break it.

Key definitions: `Violation`, `Violation.message`.
-/

namespace ClassCompiler

inductive Violation where
  | duplicateType (name : String)
  | duplicateParent (child parent : String)
  | unresolvedType (name referencedBy : String)
  | classExtendsInterface (child parent : String)
  | extendsFinalClass (child parent : String)
  | interfaceExtendsClass (child parent : String)
  | implementsClass (child parent : String)
  | cycle (name : String)
  | duplicateMethod (owner : String) (method : Signature)
  | abstractMethodInConcreteClass (owner : String) (method : Signature)
  | returnTypeMismatch (owner : String) (method : Signature) (inherited : Method)
  | instanceReplacesStatic (owner : String) (method : Signature) (inherited : Method)
  | staticReplacesInstance (owner : String) (method : Signature) (inherited : Method)
  | reducedVisibility (owner : String) (method : Signature) (inherited : Method)
  | replacesFinal (owner : String) (method : Signature) (inherited : Method)
deriving DecidableEq

namespace Violation

def message : Violation → String
  | .duplicateType name => "type '" ++ name ++ "' is declared more than once"
  | .duplicateParent child parent =>
    "'" ++ parent ++ "' is repeated in the type declaration of '" ++ child ++ "'"
  | .unresolvedType name referencedBy =>
    "type '" ++ name ++ "' referenced by '" ++ referencedBy ++ "' cannot be resolved"
  | .classExtendsInterface child parent =>
    "a class cannot extend an interface [class: " ++ child ++ ", interface: " ++ parent ++ "]"
  | .extendsFinalClass child parent =>
    "class '" ++ child ++ "' is extending final class '" ++ parent ++ "'"
  | .interfaceExtendsClass child parent =>
    "an interface cannot extend a class [interface: " ++ child ++ ", class: " ++ parent ++ "]"
  | .implementsClass child parent =>
    "a class cannot implement a class [class: " ++ child ++ ", implemented class: " ++ parent ++ "]"
  | .cycle name => "hierarchy graph is not acyclic: '" ++ name ++ "' is causing a cycle"
  | .duplicateMethod owner method =>
    "a method with the exact same signature is declared twice in '" ++ owner ++ "': " ++ method.text
  | .abstractMethodInConcreteClass owner method =>
    "'" ++ owner ++ "' declares abstract method " ++ method.text ++
      " but is neither abstract nor an interface"
  | .returnTypeMismatch owner method inherited =>
    method.text ++ " in '" ++ owner ++ "' replaces " ++ inherited.text ++
      " with a different return type"
  | .instanceReplacesStatic owner method inherited =>
    "nonstatic " ++ method.text ++ " in '" ++ owner ++ "' must not replace static " ++ inherited.text
  | .staticReplacesInstance owner method inherited =>
    "static " ++ method.text ++ " in '" ++ owner ++ "' must not replace nonstatic " ++ inherited.text
  | .reducedVisibility owner method inherited =>
    "protected " ++ method.text ++ " in '" ++ owner ++ "' must not replace public " ++ inherited.text
  | .replacesFinal owner method inherited =>
    method.text ++ " in '" ++ owner ++ "' must not replace final " ++ inherited.text

end Violation
end ClassCompiler
