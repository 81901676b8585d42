import ClassCompiler.Hierarchy.Violation
import ClassCompiler.Source.Node

/-!
# Errors

Everything that can stop the compiler, by cause. A violation of the hierarchy
rules or a self reference means that the program is not lawful; an unsupported
feature, that it is lawful but has no code yet; a defect, that a stage was
handed something that an earlier stage should have ruled out; a fault, that
the output could not be written. The wording of each cause is in `Error.message`.

Key definitions: `Error`, `Feature`, `Defect`, `Fault`, `Error.message`.
-/

namespace ClassCompiler

/-- A construct of the language that the compiler has no code for. -/
inductive Feature where
  | fieldInitializer (field : String)
  | nativeInstanceMethod (method : Method)
  | stringLiteral
  | fieldAccess (name : String)
  | storeOutsideFrame
  | thisRef
  | call (name : String)
  | elementAccess
  | cast (type : TypeRef)
  | instanceOf
  | new (type : TypeRef)
  | newArray (element : TypeRef)
deriving DecidableEq

namespace Feature

def message : Feature → String
  | .fieldInitializer field => "initializer of field '" ++ field ++ "'"
  | .nativeInstanceMethod method => "native instance method " ++ method.text
  | .stringLiteral => "string literal"
  | .fieldAccess name => "field access '" ++ name ++ "'"
  | .storeOutsideFrame => "assignment to a field or array element"
  | .thisRef => "'this'"
  | .call name => "method invocation '" ++ name ++ "'"
  | .elementAccess => "array access"
  | .cast type => "cast to '" ++ type.text ++ "'"
  | .instanceOf => "instanceof"
  | .new type => "object creation 'new " ++ type.text ++ "'"
  | .newArray element => "array creation 'new " ++ element.text ++ "[]'"

end Feature

/-- Something that a stage cannot make sense of. -/
inductive Defect where
  | unnamedType
  | missingType (name : String)
  | cyclicSuperclasses (name : String)
  | outsideRoutine (kind : NodeKind) (span : Span)
  | missingLayout (className : String)
  | missingBody (method : Method)
  | frameMismatch (label : String) (reserved allocated : Nat)
  | literalRange (value : Int)
  | eagerShortCircuit
deriving DecidableEq

namespace Defect

def message : Defect → String
  | .unnamedType => "type declaration without an identifier"
  | .missingType name => "type '" ++ name ++ "' is missing from the hierarchy graph"
  | .cyclicSuperclasses name =>
    "superclass chain of '" ++ name ++ "' is cyclic; the hierarchy was not verified"
  | .outsideRoutine kind span =>
    kind.text ++ " reached outside of a routine body at " ++ span.text
  | .missingLayout className =>
    "dispatch layout has no entry for class '" ++ className ++ "'"
  | .missingBody method => "concrete method " ++ method.text ++ " has no body"
  | .frameMismatch label reserved allocated =>
    "frame of " ++ label ++ " reserved " ++ toString reserved ++ " locals but allocated " ++
      toString allocated
  | .literalRange value => "integer literal " ++ toString value ++ " does not fit in 32 bits"
  | .eagerShortCircuit => "short-circuit operator reached eager evaluation"

end Defect

/-- What can go wrong when text is written or a file is made. -/
inductive Fault where
  | limit
  | notFound
  | fileExists
  | notDirectory
  | isDirectory
  | nameTooLong
  | invalidName
  | deviceFull
deriving DecidableEq

namespace Fault

def message : Fault → String
  | .limit => "limit"
  | .notFound => "No such file or directory (os error 2)"
  | .fileExists => "File exists (os error 17)"
  | .notDirectory => "Not a directory (os error 20)"
  | .isDirectory => "Is a directory (os error 21)"
  | .nameTooLong => "File name too long (os error 36)"
  | .invalidName => "file name contained an unexpected NUL byte"
  | .deviceFull => "No space left on device (os error 28)"

end Fault

inductive Error where
  | writing (fault : Fault)
  | output (path : String) (fault : Fault)
  | hierarchy (violation : Violation)
  | selfReference (ident : String) (span : Span)
  | unsupported (feature : Feature)
  | internal (defect : Defect)
deriving DecidableEq

namespace Error

def message : Error → String
  | .writing fault => "IO error: " ++ fault.message
  | .output path fault => "cannot write output file " ++ path ++ ": " ++ fault.message
  | .hierarchy violation => "Type hierarchy error: " ++ violation.message
  | .selfReference ident span =>
    "Semantic error: local variable '" ++ ident ++ "' is used in its own initializer (" ++
      span.text ++ ")"
  | .unsupported feature => "Unsupported feature: " ++ feature.message
  | .internal defect => "Internal compiler error: " ++ defect.message

/-- Whether the compiler, and not the program, is at fault. -/
def isInternal : Error → Bool
  | .internal _ => true
  | _ => false

/-- Whether the program was rejected as not lawful. -/
def isSemantic : Error → Bool
  | .hierarchy _ => true
  | .selfReference .. => true
  | _ => false

end Error
end ClassCompiler
