import Cognate.Unit.Basic

/-! # Spelling of types

A type as it is written in a cast: the name of what all derivations start from, and the declarator around an absent
name. -/

namespace Cognate.DeclUnit

/-- A name in front of a declarator. -/
def nameBefore (name declarator : String) : String :=
  match declarator.toList with
  | [] => name
  | '[' :: _ => name ++ declarator
  | _ => name ++ " " ++ declarator

/-- What a foreign handle is spelled. -/
def foreignSpelling : String := "<invalid type>"

def tagSpelling (tag : Tag) (name : Option String) : String := tag.spelling ++ " " ++ name.getD "<anonymous>"

/-- The type around a declarator, through at most `fuel` levels of children. -/
def spellWithin (u : DeclUnit) : Nat → Ty → String → String
  | 0, _, _ => foreignSpelling
  | fuel + 1, t, declarator =>
    match u.shape? t with
    | none => foreignSpelling
    | some shape =>
      let spell := u.spellWithin fuel
      let pointed (pointee : Ty) (operator : String) : String :=
        let inner := operator ++ declarator
        spell pointee (if u.isArray pointee || u.isFunction pointee then "(" ++ inner ++ ")" else inner)
      match shape with
      | .pointer pointee | .objcPointer pointee => pointed pointee "*"
      | .blockPointer pointee => pointed pointee "^"
      | .lvalueRef pointee => pointed pointee "&"
      | .rvalueRef pointee => pointed pointee "&&"
      | .memberPointer pointee owner => pointed pointee (spell owner "" ++ "::*")
      | .constantArray element size => spell element s!"{declarator}[{size}]"
      | .incompleteArray element => spell element (declarator ++ "[]")
      | .variableArray element => spell element (declarator ++ "[*]")
      | .prototype result params variadic _ =>
        let listed := params.map (spell · "") ++ if variadic then ["..."] else []
        let inside := if listed.isEmpty then "void" else ", ".intercalate listed
        spell result s!"{declarator}({inside})"
      | .noPrototype result _ => spell result (declarator ++ "()")
      | .qualified inner q =>
        if (u.shape? inner).any Shape.isPointerLike then
          spell inner (if declarator.isEmpty then q.spelling else q.spelling ++ " " ++ declarator)
        else q.spelling ++ " " ++ spell inner declarator
      | .builtin b => nameBefore b.spelling declarator
      | .complex element => nameBefore ("_Complex " ++ spell element "") declarator
      | .vector element count _ =>
        let inside := spell element ""
        nameBefore s!"vector<{count} x {inside}>" declarator
      | .record id =>
        match u.record? id with
        | some decl => nameBefore (tagSpelling decl.tag decl.name) declarator
        | none => foreignSpelling
      | .enum id =>
        match u.enum? id with
        | some decl => nameBefore (tagSpelling .enum decl.name) declarator
        | none => foreignSpelling
      | .typedef name _ => nameBefore name declarator
      | .auto => nameBefore "__auto_type" declarator
      | .atomic value => nameBefore ("_Atomic(" ++ spell value "" ++ ")") declarator
      | .pipe element => nameBefore ("pipe " ++ spell element "") declarator
      | .deducedTemplate | .objcObject | .objcInterface => nameBefore shape.cls.label declarator

/-- The spelling of a type. A node's children stand before it, so its index bounds the depth. -/
def describe (u : DeclUnit) (t : Ty) : String := u.spellWithin (t.index + 1) t ""

end Cognate.DeclUnit
