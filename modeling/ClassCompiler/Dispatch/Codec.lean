import ClassCompiler.Dispatch.Layout
import ClassCompiler.Json.Basic

/-!
# Layouts as JSON

Every field of a layout has to be there; a cell of the selector table without a
routine is null.

Key definitions: `Layout.toJson`, `Layout.ofJson?`.
-/

namespace ClassCompiler

def ParameterType.toJson (p : ParameterType) : Json :=
  .obj [("type_name", .str p.typeName), ("is_array", .bool p.isArray)]

def ParameterType.ofJson? (j : Json) : Option ParameterType := do
  let r ← j.record? ["type_name", "is_array"]
  return ⟨← r.get? "type_name" Json.str?, ← r.get? "is_array" Json.bool?⟩

def Signature.toJson (s : Signature) : Json :=
  .obj [("name", .str s.name), ("parameters", .ofList ParameterType.toJson s.parameters)]

def Signature.ofJson? (j : Json) : Option Signature := do
  let r ← j.record? ["name", "parameters"]
  return ⟨← r.get? "name" Json.str?, ← r.get? "parameters" (Json.list? ParameterType.ofJson?)⟩

def VtableEntry.toJson (e : VtableEntry) : Json :=
  .obj [("signature", e.signature.toJson), ("owner", .str e.owner), ("label", .str e.label),
    ("is_abstract", .bool e.isAbstract)]

def VtableEntry.ofJson? (j : Json) : Option VtableEntry := do
  let r ← j.record? ["signature", "owner", "label", "is_abstract"]
  return ⟨← r.get? "signature" Signature.ofJson?, ← r.get? "owner" Json.str?,
    ← r.get? "label" Json.str?, ← r.get? "is_abstract" Json.bool?⟩

def ClassLayout.toJson (c : ClassLayout) : Json :=
  .obj [("name", .str c.name), ("class_id", .ofNat c.classId), ("type_id", .ofNat c.typeId),
    ("vtable", .ofList VtableEntry.toJson c.vtable)]

def ClassLayout.ofJson? (j : Json) : Option ClassLayout := do
  let r ← j.record? ["name", "class_id", "type_id", "vtable"]
  return ⟨← r.get? "name" Json.str?, ← r.get? "class_id" Json.nat?, ← r.get? "type_id" Json.nat?,
    ← r.get? "vtable" (Json.list? VtableEntry.ofJson?)⟩

def InterfaceSlot.toJson (s : InterfaceSlot) : Json :=
  .obj [("signature", s.signature.toJson), ("declared_by", .ofList Json.ofNat s.declaredBy)]

def InterfaceSlot.ofJson? (j : Json) : Option InterfaceSlot := do
  let r ← j.record? ["signature", "declared_by"]
  return ⟨← r.get? "signature" Signature.ofJson?, ← r.get? "declared_by" (Json.list? Json.nat?)⟩

def Layout.toJson (l : Layout) : Json :=
  .obj [("types", .ofList Json.str l.types), ("classes", .ofList ClassLayout.toJson l.classes),
    ("interface_slots", .ofList InterfaceSlot.toJson l.interfaceSlots),
    ("subtypes", .ofList (Json.ofList Json.bool) l.subtypes),
    ("selector", .ofList (Json.ofList (Json.ofOption Json.str)) l.selector)]

def Layout.ofJson? (j : Json) : Option Layout := do
  let r ← j.record? ["types", "classes", "interface_slots", "subtypes", "selector"]
  return {
    types := ← r.get? "types" (Json.list? Json.str?)
    classes := ← r.get? "classes" (Json.list? ClassLayout.ofJson?)
    interfaceSlots := ← r.get? "interface_slots" (Json.list? InterfaceSlot.ofJson?)
    subtypes := ← r.get? "subtypes" (Json.list? (Json.list? Json.bool?))
    selector := ← r.get? "selector" (Json.list? (Json.list? (Json.option? Json.str?))) }

end ClassCompiler
