import Winnow.NodeId
import Winnow.Proofs.Except

/-!
# The textual form of identities

The text of a member is cut at the first dot and then at the first colon. So it
leads back to the member just if its owner has no dot and its name no colon; an
identity that is read from a text always has that text.
-/
namespace Winnow

namespace Text

theorem divide_eq_some_iff {mark : Char} {s a b : String} : divide mark s = some (a, b) ↔
    s.toList = a.toList ++ mark :: b.toList ∧ mark ∉ a.toList := by
  rw [divide, Option.map_eq_some_iff]
  constructor
  · rintro ⟨⟨l, m⟩, hcut, hparts⟩
    obtain ⟨rfl, rfl⟩ := Prod.mk.inj hparts
    simpa using eq_of_cut hcut
  · rintro ⟨hs, hmark⟩
    exact ⟨(a.toList, b.toList), by rw [hs, cut_append hmark], by simp⟩

end Text

namespace NodeId

/-- The text of the identity cannot be cut in the wrong place. -/
def Readable : NodeId → Prop
  | .class_ _ => True
  | .method ref | .field ref => '.' ∉ ref.owner.toList ∧ ':' ∉ ref.name.toList

instance : DecidablePred Readable
  | .class_ _ => .isTrue trivial
  | .method ref | .field ref =>
    inferInstanceAs (Decidable ('.' ∉ ref.owner.toList ∧ ':' ∉ ref.name.toList))

theorem readable_iff {id : NodeId} : id.Readable ↔ id.isClass = true ∨
    ∃ ref, id.member? = some ref ∧ '.' ∉ ref.owner.toList ∧ ':' ∉ ref.name.toList := by
  cases id <;> simp [Readable, isClass, member?]

variable {whole rest : String} {ref : MemberRef} {id : NodeId}

theorem parseMember_eq_ok_iff : parseMember whole rest = .ok ref ↔
    rest = ref.text ∧ '.' ∉ ref.owner.toList ∧ ':' ∉ ref.name.toList := by
  constructor
  · intro h
    unfold parseMember at h
    split at h
    next => cases h
    next owner tail howner =>
      split at h
      next => cases h
      next name descriptor hname =>
        obtain rfl := Except.ok.inj h
        obtain ⟨hrest, hdot⟩ := Text.divide_eq_some_iff.mp howner
        obtain ⟨htail, hcolon⟩ := Text.divide_eq_some_iff.mp hname
        refine ⟨String.toList_injective ?_, hdot, hcolon⟩
        rw [hrest, htail]
        simp [MemberRef.text]
  · rintro ⟨rfl, hdot, hcolon⟩
    have howner : Text.divide '.' ref.text = some (ref.owner, ref.name ++ ":" ++ ref.descriptor) :=
      Text.divide_eq_some_iff.mpr ⟨by simp [MemberRef.text], hdot⟩
    have hname : Text.divide ':' (ref.name ++ ":" ++ ref.descriptor) =
        some (ref.name, ref.descriptor) := Text.divide_eq_some_iff.mpr ⟨by simp, hcolon⟩
    simp only [parseMember, howner, hname]

/-- An identity is read from its own text alone, and only if this cannot be cut elsewhere. -/
theorem parse_eq_ok_iff : parse whole = .ok id ↔ whole = id.text ∧ id.Readable := by
  constructor
  · intro h
    unfold parse at h
    split at h
    next => cases h
    next tag rest hdivide =>
      have hwhole : whole = tag ++ ":" ++ rest :=
        String.toList_injective (by rw [(Text.divide_eq_some_iff.mp hdivide).1]; simp)
      split at h
      next htag =>
        obtain rfl := Except.ok.inj h
        exact ⟨by rw [hwhole, htag]; rfl, trivial⟩
      next =>
        split at h
        next htag =>
          obtain ⟨ref, href, rfl⟩ := map_eq_ok_iff.mp h
          obtain ⟨rfl, hreadable⟩ := parseMember_eq_ok_iff.mp href
          exact ⟨by rw [hwhole, htag]; rfl, hreadable⟩
        next =>
          split at h
          next htag =>
            obtain ⟨ref, href, rfl⟩ := map_eq_ok_iff.mp h
            obtain ⟨rfl, hreadable⟩ := parseMember_eq_ok_iff.mp href
            exact ⟨by rw [hwhole, htag]; rfl, hreadable⟩
          next => cases h
  · rintro ⟨rfl, hreadable⟩
    cases id with
    | class_ name =>
      have htag : Text.divide ':' (text (.class_ name)) = some ("class", name) :=
        Text.divide_eq_some_iff.mpr ⟨by simp [text], by decide⟩
      simp [parse, htag]
    | method ref =>
      have htag : Text.divide ':' (text (.method ref)) = some ("method", ref.text) :=
        Text.divide_eq_some_iff.mpr ⟨by simp [text], by decide⟩
      simp [parse, htag, parseMember_eq_ok_iff.mpr ⟨rfl, hreadable⟩, Except.map]
    | field ref =>
      have htag : Text.divide ':' (text (.field ref)) = some ("field", ref.text) :=
        Text.divide_eq_some_iff.mpr ⟨by simp [text], by decide⟩
      simp [parse, htag, parseMember_eq_ok_iff.mpr ⟨rfl, hreadable⟩, Except.map]

theorem parse_text (h : id.Readable) : parse id.text = .ok id := parse_eq_ok_iff.mpr ⟨rfl, h⟩

/-- The text of an identity leads back to it just if it is a class or neither its owner has a dot
nor its name a colon, and an identity has the text that it is read from. -/
theorem text_tells_identity (id : NodeId) :
    (parse id.text = .ok id ↔ id.isClass = true ∨
      ∃ ref, id.member? = some ref ∧ '.' ∉ ref.owner.toList ∧ ':' ∉ ref.name.toList) ∧
    ∀ text, parse text = .ok id → id.text = text := by
  refine ⟨?_, fun text h => (parse_eq_ok_iff.mp h).1.symm⟩
  rw [parse_eq_ok_iff, and_iff_right rfl, readable_iff]

theorem text_tells_identity_method :
    let id : NodeId := .method ⟨"a/B", "<init>", "(La/C;)V"⟩
    parse "method:a/B.<init>:(La/C;)V" = .ok id ∧ id.text = "method:a/B.<init>:(La/C;)V" := by
  intro id
  have hparse : parse "method:a/B.<init>:(La/C;)V" = .ok id := by decide
  exact ⟨hparse, (text_tells_identity id).2 _ hparse⟩

end NodeId

end Winnow
