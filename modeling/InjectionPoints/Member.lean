/-
Members of classes as selectors see them: a method or a field, and the class through which a body
reaches it.
-/
import InjectionPoints.ClassIndex.Members

namespace InjectionPoints

/-- A method, a constructor or a field of an index. -/
inductive Member (ix : ClassIndex) where
  | method (id : ix.MethodId)
  | field (id : ix.FieldId)

namespace Member

variable {ix : ClassIndex}

def declaringClass : Member ix → ix.ClassId
  | method id => id.owner
  | field id => id.owner

def name : Member ix → String
  | method id => (ix.method id).name
  | field id => (ix.field id).name

def descriptor : Member ix → String
  | method id => ix.methodDescriptor id
  | field id => ix.fieldDescriptor id

def isField : Member ix → Bool
  | method _ => false
  | field _ => true

end Member

/-- A member and the class named by the qualifier of the access; without a qualifier, or behind
`this`, the member is reached through the class that declares it. -/
structure QualifiedMember (ix : ClassIndex) where
  member : Member ix
  qualifier : Option ix.ClassId

namespace QualifiedMember

variable {ix : ClassIndex} (m : QualifiedMember ix)

/-- The class through which the member is reached. -/
def owner : ix.ClassId := m.qualifier.getD m.member.declaringClass

/-- The selector that names exactly this member of this owner. -/
def selector : Selector :=
  { owner := some (ix.decl m.owner).internalName
    name := m.member.name
    descriptor := some m.member.descriptor }

def isSelectedBy (s : Selector) : Bool :=
  s.selects m.member.name m.member.descriptor (ix.decl m.owner).internalName

/-- The literal of `selector`, `Lcom/example/Foo;bar(I)V`. -/
def literal : String := m.selector.render m.member.isField

end QualifiedMember

end InjectionPoints
