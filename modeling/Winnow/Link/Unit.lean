import Winnow.Link.Basic
import Winnow.Signature

/-!
# The links of a unit

What a unit says about its place in the hierarchy, in its declarations, and in
its bodies and signatures, each as a list of links in the order in which they
are applied. Methods that override others are linked once the hierarchy of the
whole program is known.
-/
namespace Winnow

def AnnotationUse.links (source : NodeId) (a : AnnotationUse) : List Link :=
  (if a.visible then [.mention source .annotatedBy a.type] else []) ++
    a.references.map (.mention source .typeRef)

/-- The links to the classes that a descriptor mentions. -/
def Descriptor.links (source : NodeId) (descriptor : String) : List Link :=
  match Descriptor.classes descriptor with
  | .ok classes => classes.map (.mention source .typeRef)
  | .error _ => []

/-- A signature links only to classes that are there anyway. -/
def Signature.links (source : NodeId) : Option String → List Link
  | none => []
  | some signature =>
    (Signature.classes signature).map fun name => .known ⟨source, .class_ name, .signature⟩

namespace Instruction

/-- The class where a call looks for its method: a call of an overridden method starts at the
superclass of the class it stands in. -/
def searchStart (u : CompiledUnit) (dispatch : Dispatch) (target : MemberRef) : String :=
  let isSuperCall := dispatch = .special && target.name ≠ constructorName && target.owner ≠ u.name
  match u.superclass with
  | some superclass => if isSuperCall then superclass else target.owner
  | none => target.owner

/-- What an instruction of a body in `u` links its method to. Methods of arrays belong to the root
of the hierarchy. -/
def links (u : CompiledUnit) (source : NodeId) : Instruction → List Link
  | .invoke dispatch target =>
    if Text.startsWith target.owner "[" then []
    else [.mention source (.uses .typeReference) target.owner,
      .call source dispatch (searchStart u dispatch target) target.owner target.key]
  | .field target =>
    [.mention source (.uses .typeReference) target.owner, .access source target.owner target.key]
  | .new name => [.mention source (.uses .instantiate) name]
  | .type name | .classLiteral name => [.mention source (.uses .typeReference) name]
  | .reflect name member descriptor =>
    .mention source (.uses .reflection) name ::
      member.toList.map fun m => .lookup source name m descriptor

end Instruction

namespace CompiledUnit

def hierarchyLinks (u : CompiledUnit) : List Link :=
  u.superclass.toList.map (.supertype u.id .super) ++ u.interfaces.map (.supertype u.id .implements)

/-- Static initialisers, and the elements of an annotation type, are there whenever the class is. -/
def isImplicit (u : CompiledUnit) (m : Method) : Bool :=
  m.name = staticInitializerName || u.modifiers.isAnnotation

def methodLinks (u : CompiledUnit) (m : Method) : List Link :=
  let source := m.id u.name
  .known ⟨u.id, source, .contains⟩ ::
    Descriptor.links source m.descriptor ++
    m.exceptions.map (.mention source .typeRef) ++
    m.annotations.flatMap (AnnotationUse.links source) ++
    m.annotationDefault.map (.mention source .annotationDefault) ++
    (if u.isImplicit m then [.known ⟨u.id, source, .implicit⟩] else [])

def fieldLinks (u : CompiledUnit) (f : Field) : List Link :=
  let source := f.id u.name
  .known ⟨u.id, source, .contains⟩ ::
    Descriptor.links source f.descriptor ++ f.annotations.flatMap (AnnotationUse.links source)

/-- The classes that the unit's own entries in the table of nested types name as outer ones. -/
def outerClasses (u : CompiledUnit) : List String :=
  (u.innerClasses.filter (·.inner = u.name)).filterMap (·.outer)

def declarationLinks (u : CompiledUnit) : List Link :=
  u.annotations.flatMap (AnnotationUse.links u.id) ++
    u.outerClasses.map (.mention u.id .nestedIn) ++
    u.methods.flatMap u.methodLinks ++ u.fields.flatMap u.fieldLinks

/-- The links that change with bodies and signatures. A library unit has none. -/
def bodyLinks (u : CompiledUnit) : List Link :=
  if u.library then []
  else Signature.links u.id u.signature ++
    u.fields.flatMap (fun f => Signature.links (f.id u.name) f.signature) ++
    u.methods.flatMap fun m =>
      Signature.links (m.id u.name) m.signature ++ m.body.flatMap (Instruction.links u (m.id u.name))

end CompiledUnit

/-- A method that can override another one. -/
def Method.canOverride (m : Method) : Bool :=
  !m.modifiers.isStatic && !m.modifiers.isPrivate && m.name ≠ constructorName &&
    m.name ≠ staticInitializerName

namespace Graph

/-- The method of a class that one of the same key in a class below it overrides. -/
def overridable? (g : Graph) (c : ClassNode) (key : MemberKey) : Option NodeId :=
  (g.declared c.name .method key).filter fun id =>
    match g.member? id with
    | some m => !m.modifiers.isStatic && !m.modifiers.isPrivate
    | none => false

/-- A class outside the program has, or may have, a method of that key. -/
def overridesOutside (g : Graph) (key : MemberKey) (c : ClassNode) : Bool :=
  !c.isProgram && ((g.overridable? c key).isSome || c.isPlaceholder)

/-- A method is linked to those it overrides; one that overrides code outside the program may be
called from there, so it is there whenever its class is. -/
def overrideEdges (g : Graph) (h : Hierarchy) (u : CompiledUnit) (m : Method) : List Edge :=
  if !m.canOverride then []
  else
    let above := (h.supertypes u.id).filterMap fun id => (g.node? id).bind Node.class?
    let overridden := (above.filter (·.isProgram)).filterMap (g.overridable? · m.key)
    let outside := isObjectMethod m.key || above.any (g.overridesOutside m.key)
    overridden.map (fun id => ⟨m.id u.name, id, .overrides⟩) ++
      (if outside then [⟨u.id, m.id u.name, .implicit⟩] else [])

def linkOverrides (h : Hierarchy) (g : Graph) (u : CompiledUnit) : Graph :=
  u.methods.foldl (fun g m => g.addEdges (g.overrideEdges h u m)) g

end Graph

end Winnow
