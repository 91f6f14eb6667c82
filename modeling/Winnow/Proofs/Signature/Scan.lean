import Winnow.Proofs.SearchOrder
import Winnow.Proofs.Signature.Grammar

/-!
# Which classes of a signature are found

The scan for class types goes on in one of two ways behind an `L`. If a class
type may begin there, it takes the name and passes over what follows, up to the
next type arguments or the end of the type; else it goes on character by
character. On a quiet name both come to the same, so the two ways differ in the
one name only. From there the scan of a tree is followed case by case, with what
comes after the tree left open.
-/
namespace Winnow

/-- The entries of a list, each once, in the order of their first appearance. -/
structure ListsOnce {α : Type} [DecidableEq α] (l once : List α) : Prop where
  nodup : once.Nodup
  mem_iff : ∀ a, a ∈ once ↔ a ∈ l
  ordered : once.Pairwise fun a b => l.idxOf a < l.idxOf b

section ListsOnce

variable {α : Type} [DecidableEq α]

/-- Leaving out other entries does not change which of two comes first. -/
theorem idxOf_lt_idxOf_of_filter {p : α → Bool} {l : List α} {a b : α} (ha : p a = true)
    (hb : p b = true) (h : (l.filter p).idxOf a < (l.filter p).idxOf b) :
    l.idxOf a < l.idxOf b := by
  induction l with
  | nil => exact h
  | cons c l ih =>
    by_cases hc : p c = true
    · rw [List.filter_cons_of_pos hc] at h
      by_cases hca : c = a <;> by_cases hcb : c = b <;> simp_all [List.idxOf_cons]
    · have hca : c ≠ a := fun h => hc (h ▸ ha)
      have hcb : c ≠ b := fun h => hc (h ▸ hb)
      rw [List.filter_cons_of_neg hc] at h
      rw [List.idxOf_cons_ne _ hca, List.idxOf_cons_ne _ hcb]
      exact Nat.succ_lt_succ (ih h)

theorem pairwise_idxOf_eraseDups (l : List α) :
    l.eraseDups.Pairwise fun a b => l.idxOf a < l.idxOf b := by
  induction hn : l.length using Nat.strong_induction_on generalizing l with
  | _ n ih =>
    cases l with
    | nil => exact .nil
    | cons a l =>
      have hlt : (l.filter fun b => !b == a).length < n := by
        have hle := List.length_filter_le (fun b => !b == a) l
        simp only [List.length_cons] at hn
        omega
      have hne : ∀ b ∈ (l.filter fun b => !b == a).eraseDups, (!b == a) = true := fun b hb =>
        (List.mem_filter.mp (List.mem_eraseDups.mp hb)).2
      have hidx : ∀ b, (!b == a) = true → (a :: l).idxOf b = l.idxOf b + 1 := fun b hb =>
        List.idxOf_cons_ne l fun h => by simp [h] at hb
      rw [List.eraseDups_cons, List.pairwise_cons]
      constructor
      · intro b hb
        rw [List.idxOf_cons_self, hidx b (hne b hb)]
        exact Nat.succ_pos _
      · refine (ih _ hlt _ rfl).imp_of_mem fun {b c} hb hc h => ?_
        rw [hidx b (hne b hb), hidx c (hne c hc)]
        exact Nat.succ_lt_succ (idxOf_lt_idxOf_of_filter (hne b hb) (hne c hc) h)

theorem listsOnce_eraseDups (l : List α) : ListsOnce l l.eraseDups :=
  ⟨nodup_eraseDups l, fun _ => List.mem_eraseDups, pairwise_idxOf_eraseDups l⟩

end ListsOnce

namespace Signature

/-- How the scan goes on behind an `L`. -/
def resume (passing : Bool) (l : List Char) : List String :=
  if passing then mentions true (l.dropWhile (!endsType ·)).tail else mentions false l

section Steps

variable {shown passing : Bool} {c : Char} {l rest : List Char}

/-- A class type in sight: the text up to the end of a name is taken, unless it is empty. -/
theorem mentions_class (hl : l.takeWhile (!endsName ·) ≠ []) :
    mentions true ('L' :: l) = String.ofList (l.takeWhile (!endsName ·)) :: resume true l := by
  rw [mentions, if_pos ⟨rfl, rfl⟩]
  simp only [if_neg hl]
  rfl

theorem mentions_cons (hc : c ≠ 'L') : mentions shown (c :: l) = mentions (isBoundary c) l := by
  rw [mentions, if_neg fun h => hc h.1]

/-- Names are quiet, so nothing is found within them. -/
theorem mentions_append_of_isChain (h : l.IsChain fun c d => isBoundary c = true → d ≠ 'L')
    (hl : shown = true → l.head? ≠ some 'L') (hc : c ≠ 'L') :
    mentions shown (l ++ c :: rest) = mentions (isBoundary c) rest := by
  induction l generalizing shown with
  | nil => exact mentions_cons hc
  | cons d l ih =>
    have hd : ¬(d = 'L' ∧ shown = true) := by
      rintro ⟨rfl, hshown⟩
      exact hl hshown rfl
    rw [List.cons_append, mentions, if_neg hd]
    refine ih h.tail fun hd hhead => ?_
    obtain ⟨l', rfl⟩ := List.head?_eq_some_iff.mp hhead
    exact (List.isChain_cons_cons.mp h).1 hd rfl

theorem resume_cons_of_endsType (hc : endsType c = true) :
    resume passing (c :: l) = mentions true l := by
  cases passing with
  | true => simp [resume, hc]
  | false =>
    have hmark : c = ';' ∨ c = '<' := by simpa [endsType] using hc
    rcases hmark with rfl | rfl <;> exact mentions_cons (by decide)

theorem resume_cons (hc : c ≠ 'L') (hboundary : isBoundary c = false)
    (hends : endsType c = false) : resume passing (c :: l) = resume passing l := by
  cases passing with
  | true => simp [resume, hends]
  | false =>
    show mentions false (c :: l) = mentions false l
    rw [mentions_cons hc, hboundary]

theorem mentions_cons_eq_resume (hc : c ≠ 'L') :
    mentions shown (c :: l) = resume false (c :: l) := by
  rw [mentions_cons hc]
  exact (mentions_cons hc).symm

end Steps

theorem Identifier.not_ends (name : Identifier) {c : Char} (hc : c ∈ name.chars) :
    endsName c = false ∧ endsType c = false := by
  have hplain := name.plain c hc
  simp only [separators, List.mem_cons, not_or] at hplain
  simp [endsName, endsType, hplain]

theorem resume_identifier {passing : Bool} {name : Identifier}
    (h : passing = false → name.Quiet) {c : Char} (hc : c ≠ 'L') (rest : List Char) :
    resume passing (name.chars ++ c :: rest) = resume passing (c :: rest) := by
  cases passing with
  | true =>
    have hpass : ∀ d ∈ name.chars, (!endsType d) = true := fun d hd => by
      rw [(name.not_ends hd).2]
      rfl
    simp only [resume, if_true, List.dropWhile_append_of_pos hpass]
  | false =>
    show mentions false _ = mentions false _
    rw [mentions_append_of_isChain (h rfl) (by simp) hc, mentions_cons hc]

namespace ClassName

variable {name : ClassName} {c : Char}

theorem eq_slash_or_mem_identifier (h : c ∈ name.chars) :
    c = '/' ∨ ∃ i ∈ name.identifiers, c ∈ i.chars := by
  rcases List.mem_append.mp h with h | h
  · obtain ⟨i, hi, hc⟩ := List.mem_flatMap.mp h
    rcases List.mem_append.mp hc with hc | hc
    · exact .inr ⟨i, List.mem_append_left _ hi, hc⟩
    · exact .inl (List.mem_singleton.mp hc)
  · exact .inr ⟨name.simple, List.mem_append_right _ (List.mem_singleton_self _), h⟩

theorem not_mem_chars (hc : c ∈ separators) (hslash : c ≠ '/') : c ∉ name.chars := by
  intro h
  rcases eq_slash_or_mem_identifier h with rfl | ⟨i, _, hi⟩
  · exact hslash rfl
  · exact i.plain c hi hc

theorem chars_ne_nil : name.chars ≠ [] := by
  simp [chars, name.simple.nonempty]

theorem resume_append {passing : Bool} (h : passing = false → ∀ i ∈ name.identifiers, i.Quiet)
    (hc : c ≠ 'L') (rest : List Char) :
    resume passing (name.chars ++ c :: rest) = resume passing (c :: rest) := by
  obtain ⟨packages, simple⟩ := name
  induction packages with
  | nil => exact resume_identifier (fun hp => h hp simple (by simp [identifiers])) hc rest
  | cons package packages ih =>
    have hpackage := fun hp => h hp package (by simp [identifiers])
    have hrest := ih fun hp i hi => h hp i (List.mem_cons_of_mem package hi)
    calc
      resume passing (chars ⟨package :: packages, simple⟩ ++ c :: rest)
        = resume passing (package.chars ++ '/' :: (chars ⟨packages, simple⟩ ++ c :: rest)) := by
          simp [chars]
      _ = resume passing ('/' :: (chars ⟨packages, simple⟩ ++ c :: rest)) :=
          resume_identifier hpackage (by decide) _
      _ = resume passing (chars ⟨packages, simple⟩ ++ c :: rest) :=
          resume_cons (by decide) (by decide) (by decide)
      _ = resume passing (c :: rest) := hrest

end ClassName

/-- Both ways to go on behind an `L` differ in the name only. -/
theorem mentions_className (shown : Bool) (name : ClassName) {c : Char} (hc : endsName c = true)
    (l : List Char) :
    mentions shown ('L' :: (name.chars ++ c :: l)) =
      (if shown then [name.text] else []) ++ resume shown (name.chars ++ c :: l) := by
  cases shown with
  | true =>
    have hname : ∀ d ∈ name.chars, (!endsName d) = true := by
      intro d hd
      have hmark : d ≠ ';' ∧ d ≠ '<' ∧ d ≠ '.' := by
        refine ⟨?_, ?_, ?_⟩ <;> rintro rfl <;>
          exact ClassName.not_mem_chars (by decide) (by decide) hd
      simp [endsName, hmark]
    have htake : (name.chars ++ c :: l).takeWhile (!endsName ·) = name.chars := by
      rw [List.takeWhile_append_of_pos hname, List.takeWhile_cons_of_neg (by simp [hc]),
        List.append_nil]
    rw [mentions_class (by rw [htake]; exact ClassName.chars_ne_nil), htake]
    rfl
  | false =>
    rw [mentions, if_neg (by simp)]
    rfl

theorem Tree.exists_ending_eq_cons (rest : Tree .ending) :
    ∃ c l, rest.chars = c :: l ∧ endsName c = true ∧ c ≠ 'L' := by
  cases rest with
  | close => exact ⟨';', [], rfl, by decide⟩
  | inner => exact ⟨'.', _, rfl, by decide⟩

theorem Tree.exists_enclosed_eq_cons (arguments : List Char) (rest : Tree .ending) (l : List Char) :
    ∃ c l', enclosed arguments ++ rest.chars ++ l = c :: l' ∧ endsName c = true ∧ c ≠ 'L' := by
  unfold enclosed
  split
  · obtain ⟨c, l', hc, hends, hne⟩ := rest.exists_ending_eq_cons
    exact ⟨c, l' ++ l, by simp [hc], hends, hne⟩
  · exact ⟨'<', _, rfl, by decide⟩

/-- For the ending of a class type the flag only says how it is scanned. -/
theorem Tree.ending_flag (rest : Tree .ending) (passing : Bool) :
    rest.inSight passing = rest.inSight true ∧ rest.showsNext passing = true := by
  cases rest <;> exact ⟨rfl, rfl⟩

/-- Type arguments are scanned as they come, whether or not the class was in sight. -/
theorem resume_enclosed {passing : Bool} {arguments : Tree .arguments} {rest : Tree .ending}
    {l : List Char}
    (ha : ∀ l, mentions true (arguments.chars ++ l) =
      arguments.inSight true ++ mentions (arguments.showsNext true) l)
    (hr : resume (passing && arguments.chars.isEmpty) (rest.chars ++ l) =
      rest.inSight (passing && arguments.chars.isEmpty) ++
        mentions (rest.showsNext (passing && arguments.chars.isEmpty)) l) :
    resume passing (enclosed arguments.chars ++ rest.chars ++ l) =
      arguments.inSight true ++ rest.inSight true ++ mentions true l := by
  rw [(rest.ending_flag _).1, (rest.ending_flag _).2] at hr
  rw [List.append_assoc (arguments.inSight true), ← hr]
  unfold enclosed
  split
  next hnone =>
    have hsight : arguments.inSight true = [] := by
      have hnil := ha []
      rw [hnone, List.append_nil, mentions, mentions, List.append_nil] at hnil
      exact hnil.symm
    simp [hnone, hsight]
  next hsome =>
    obtain ⟨c, l', hc, -, hne⟩ := rest.exists_ending_eq_cons
    have hempty : arguments.chars.isEmpty = false := by simpa using hsome
    rw [hempty, Bool.and_false]
    calc
      resume passing ('<' :: (arguments.chars ++ ['>']) ++ rest.chars ++ l)
        = mentions true (arguments.chars ++ '>' :: (rest.chars ++ l)) := by
          simpa using resume_cons_of_endsType (by decide)
      _ = arguments.inSight true ++ mentions true (rest.chars ++ l) := by
          rw [ha, mentions_cons (by decide)]
          rfl
      _ = arguments.inSight true ++ resume false (rest.chars ++ l) := by
          rw [hc, List.cons_append, mentions_cons_eq_resume hne]

/-- The scan of a part of a signature, from a state in which a class type is in sight or not. -/
def scan : Category → Bool → List Char → List String
  | .ending, passing, l => resume passing l
  | _, shown, l => mentions shown l

/-- In a tree with quiet names the scan finds the class types in sight, whatever comes after it. -/
theorem scan_chars_append {k : Category} (t : Tree k) (shown : Bool)
    (h : ∀ name ∈ t.scanned shown, name.Quiet) (l : List Char) :
    scan k shown (t.chars ++ l) = t.inSight shown ++ mentions (t.showsNext shown) l := by
  -- Both the state of the scan and what follows the tree differ from one subtree to the next.
  induction t generalizing shown l with
  | base type =>
    have hletter : type.letter ≠ 'L' ∧ isBoundary type.letter = false := by cases type <;> decide
    simp [scan, Tree.chars, Tree.inSight, Tree.showsNext, mentions_cons hletter.1, hletter.2]
  | reference type ih => exact ih shown h l
  | ofClass type ih => exact ih shown h l
  | typeVariable name =>
    have hquiet : name.Quiet := h name (List.mem_singleton_self name)
    calc
      mentions shown ('T' :: (name.chars ++ [';']) ++ l)
        = mentions false (name.chars ++ ';' :: l) := by
          rw [List.cons_append, mentions_cons (by decide), List.append_assoc]
          rfl
      _ = mentions true l := mentions_append_of_isChain hquiet (by simp) (by decide)
  | array element ih =>
    show mentions shown ('[' :: (element.chars ++ l)) = _
    rw [mentions_cons (by decide)]
    exact ih true h l
  | classType name arguments rest iha ihr =>
    obtain ⟨hname, ha, hr⟩ : (shown = false → ∀ i ∈ name.identifiers, i.Quiet) ∧
        (∀ i ∈ arguments.scanned true, i.Quiet) ∧
        ∀ i ∈ rest.scanned (shown && arguments.chars.isEmpty), i.Quiet := by
      simp only [Tree.scanned, List.forall_mem_append] at h
      exact ⟨fun hs => by simpa [hs] using h.1, h.2⟩
    obtain ⟨c, l', hc, hends, hne⟩ := Tree.exists_enclosed_eq_cons arguments.chars rest l
    calc
      mentions shown ('L' :: (name.chars ++ (enclosed arguments.chars ++ rest.chars)) ++ l)
        = mentions shown ('L' :: (name.chars ++ c :: l')) := by simp [← hc]
      _ = (if shown then [name.text] else []) ++ resume shown (c :: l') := by
          rw [mentions_className shown name hends, ClassName.resume_append hname hne]
      _ = (if shown then [name.text] else []) ++
            (arguments.inSight true ++ rest.inSight true ++ mentions true l) := by
          rw [← hc, resume_enclosed (iha true ha) (ihr _ hr l)]
      _ = _ := by simp [Tree.inSight, Tree.showsNext]
  | noMore => rfl
  | unbounded more ih =>
    show mentions shown ('*' :: (more.chars ++ l)) = _
    rw [mentions_cons (by decide)]
    exact ih false h l
  | bounded bound type more iht ihm =>
    have hbound : bound.mark ≠ 'L' ∧ isBoundary bound.mark = true := by cases bound <;> decide
    obtain ⟨ht, hm⟩ := List.forall_mem_append.mp h
    calc
      mentions shown (bound.mark :: (type.chars ++ more.chars) ++ l)
        = mentions true (type.chars ++ (more.chars ++ l)) := by
          rw [List.cons_append, mentions_cons hbound.1, hbound.2, List.append_assoc]
      _ = type.inSight true ++ mentions (type.showsNext true) (more.chars ++ l) := iht true ht _
      _ = _ := by
          rw [Tree.inSight, List.append_assoc]
          exact congrArg _ (ihm _ hm l)
  | exactly type more iht ihm =>
    obtain ⟨ht, hm⟩ := List.forall_mem_append.mp h
    calc
      mentions shown ((type.chars ++ more.chars) ++ l)
        = type.inSight shown ++ mentions (type.showsNext shown) (more.chars ++ l) := by
          rw [List.append_assoc]
          exact iht shown ht _
      _ = _ := by
          rw [Tree.inSight, List.append_assoc]
          exact congrArg _ (ihm _ hm l)
  | close => exact resume_cons_of_endsType (by decide)
  | inner name arguments rest iha ihr =>
    obtain ⟨hname, ha, hr⟩ : (shown = false → name.Quiet) ∧
        (∀ i ∈ arguments.scanned true, i.Quiet) ∧
        ∀ i ∈ rest.scanned (shown && arguments.chars.isEmpty), i.Quiet := by
      simp only [Tree.scanned, List.forall_mem_append] at h
      exact ⟨fun hs => by simpa [hs] using h.1, h.2⟩
    obtain ⟨c, l', hc, -, hne⟩ := Tree.exists_enclosed_eq_cons arguments.chars rest l
    calc
      resume shown ('.' :: (name.chars ++ (enclosed arguments.chars ++ rest.chars)) ++ l)
        = resume shown (name.chars ++ c :: l') := by
          rw [List.cons_append, resume_cons (by decide) (by decide) (by decide), ← hc]
          simp
      _ = resume shown (c :: l') := resume_identifier hname hne l'
      _ = arguments.inSight true ++ rest.inSight true ++ mentions true l := by
          rw [← hc, resume_enclosed (iha true ha) (ihr _ hr l)]

/-- What one item does to the scan. -/
theorem Item.mentions_append {item : Item} {shown : Bool}
    (h : ∀ name ∈ item.scanned shown, name.Quiet) (hm : item.mistaken shown = false)
    (l : List Char) :
    mentions shown (item.chars ++ l) =
      item.inSight shown ++ mentions (item.showsNext shown) l := by
  cases item with
  | mark m => exact mentions_cons (by cases m <;> decide)
  | parameter name =>
    have hquiet : name.Quiet := h name (List.mem_singleton_self name)
    have hhead : shown = true → name.chars.head? ≠ some 'L' := by
      rintro rfl
      simpa [mistaken] using hm
    show mentions shown (name.chars ++ [':'] ++ l) = mentions true l
    rw [List.append_assoc]
    exact mentions_append_of_isChain hquiet hhead (by decide)
  | type t => exact scan_chars_append t shown h l

theorem mentions_items {items : List Item} {shown : Bool}
    (h : ∀ name ∈ scanned items shown, name.Quiet) (hm : mistaken items shown = false) :
    mentions shown (items.flatMap Item.chars) = inSight items shown := by
  induction items generalizing shown with
  | nil => rw [List.flatMap_nil, mentions, inSight]
  | cons item items ih =>
    obtain ⟨hitem, hitems⟩ := List.forall_mem_append.mp h
    obtain ⟨hm, hms⟩ := Bool.or_eq_false_iff.mp hm
    rw [List.flatMap_cons, Item.mentions_append hitem hm, ih hitems hms, inSight]

/-- What is taken for a class in place of a type parameter holds the colon after its name. -/
theorem exists_colon_of_mistaken {items : List Item} {shown : Bool}
    (h : ∀ name ∈ scanned items shown, name.Quiet) (hm : mistaken items shown = true) :
    ∃ n ∈ mentions shown (items.flatMap Item.chars), ':' ∈ n.toList := by
  induction items generalizing shown with
  | nil => simp [mistaken] at hm
  | cons item items ih =>
    obtain ⟨hitem, hitems⟩ := List.forall_mem_append.mp h
    rw [List.flatMap_cons]
    cases hfirst : item.mistaken shown with
    | false =>
      rw [Item.mentions_append hitem hfirst]
      obtain ⟨n, hn, hcolon⟩ := ih hitems (by simpa [mistaken, hfirst] using hm)
      exact ⟨n, List.mem_append_right _ hn, hcolon⟩
    | true =>
      cases item with
      | mark => simp [Item.mistaken] at hfirst
      | type => simp [Item.mistaken] at hfirst
      | parameter name =>
        obtain ⟨rfl, hhead⟩ : shown = true ∧ name.chars.head? = some 'L' := by
          simpa [Item.mistaken] using hfirst
        obtain ⟨l, hl⟩ := List.head?_eq_some_iff.mp hhead
        have hname : ∀ d ∈ l, (!endsName d) = true := fun d hd => by
          rw [(name.not_ends (by simp [hl, hd])).1]
          rfl
        have htake : ∀ rest, (l ++ ':' :: rest).takeWhile (!endsName ·) =
            l ++ ':' :: rest.takeWhile (!endsName ·) := fun rest => by
          rw [List.takeWhile_append_of_pos hname, List.takeWhile_cons_of_pos (by decide)]
        rw [Item.chars, hl, List.append_assoc, List.cons_append, List.singleton_append,
          mentions_class (by simp [htake]), htake]
        exact ⟨_, List.mem_cons_self, by simp⟩

theorem Tree.not_mem_colon {k : Category} (t : Tree k) : ∀ n ∈ t.outermost, ':' ∉ n.toList := by
  induction t with
  | classType name arguments rest iha ihr =>
    refine List.forall_mem_cons.mpr ⟨?_, List.forall_mem_append.mpr ⟨iha, ihr⟩⟩
    rw [ClassName.text, String.toList_ofList]
    exact ClassName.not_mem_chars (by decide) (by decide)
  | base | typeVariable | noMore | close => exact nofun
  | reference type ih | ofClass type ih | array type ih | unbounded type ih => exact ih
  | bounded _ type more iht ihm | exactly type more iht ihm | inner _ type more iht ihm =>
    exact List.forall_mem_append.mpr ⟨iht, ihm⟩

theorem Tree.inSight_sublist {k : Category} (t : Tree k) (shown : Bool) :
    (t.inSight shown).Sublist t.outermost := by
  induction t generalizing shown with
  | classType name arguments rest iha ihr =>
    cases shown with
    | true => exact .cons_cons _ ((iha true).append (ihr true))
    | false => exact .cons _ ((iha true).append (ihr true))
  | base | typeVariable | noMore | close => exact List.nil_sublist _
  | reference type ih | ofClass type ih | array type ih | unbounded type ih => exact ih _
  | bounded _ type more iht ihm | exactly type more iht ihm | inner _ type more iht ihm =>
    exact (iht _).append (ihm _)

theorem inSight_sublist (items : List Item) (shown : Bool) :
    (inSight items shown).Sublist (items.flatMap Item.outermost) := by
  induction items generalizing shown with
  | nil => exact List.nil_sublist _
  | cons item items ih =>
    rw [List.flatMap_cons]
    refine .append ?_ (ih _)
    cases item with
    | type t => exact t.inSight_sublist shown
    | mark | parameter => exact List.nil_sublist _

namespace Form

variable {form : Form}

theorem not_mem_colon : ∀ n ∈ form.outermost, ':' ∉ n.toList := by
  intro n hn
  obtain ⟨item, _, hn⟩ := List.mem_flatMap.mp hn
  cases item with
  | type t => exact t.not_mem_colon n hn
  | mark | parameter => nomatch hn

theorem classes_text :
    classes form.text = (mentions true (form.items.flatMap Item.chars)).eraseDups := by
  rw [classes, text, String.toList_ofList]

end Form

/-- The classes found in a signature, if the names that are scanned are quiet. Unless a type
parameter is mistaken for a class type, they are those of the class types in sight; so they are the
right ones just if that does not happen and each class is in sight somewhere. -/
theorem classes_of_form (form : Form) (h : ∀ name ∈ form.scanned, name.Quiet) :
    form.inSight.Sublist form.outermost ∧
    (form.mistaken = false → ListsOnce form.inSight (classes form.text)) ∧
    ((∀ n, n ∈ classes form.text ↔ n ∈ form.outermost) ↔
      form.mistaken = false ∧ form.outermost ⊆ form.inSight) := by
  have hsublist := inSight_sublist form.items true
  have hfound : form.mistaken = false → ListsOnce form.inSight (classes form.text) := by
    intro hm
    rw [Form.classes_text, mentions_items h hm]
    exact listsOnce_eraseDups _
  refine ⟨hsublist, hfound, fun hclasses => ?_, ?_⟩
  · cases hm : form.mistaken with
    | false => exact ⟨rfl, fun n hn => ((hfound hm).mem_iff n).mp ((hclasses n).mpr hn)⟩
    | true =>
      -- A name with a colon in it was found, which is the name of no class.
      obtain ⟨n, hn, hcolon⟩ := exists_colon_of_mistaken h hm
      have hn : n ∈ classes form.text := by
        rw [Form.classes_text]
        exact List.mem_eraseDups.mpr hn
      exact (Form.not_mem_colon n ((hclasses n).mp hn) hcolon).elim
  · rintro ⟨hm, hsight⟩ n
    rw [(hfound hm).mem_iff]
    exact ⟨fun hn => hsublist.subset hn, fun hn => hsight hn⟩

/-- A class of the package `a`, without type arguments. -/
def bareClass (simple : Identifier) : Tree .classType :=
  .classType ⟨[.ofText "a"], simple⟩ .noMore .close

/-- Two type parameters, one of them without a class bound, a superclass with wildcards and an inner
class, and an interface. -/
def mapForm : Form :=
  .ofClass
    [⟨.ofText "K", some (.ofClass (bareClass (.ofText "A"))), []⟩,
      ⟨.ofText "V", none, [.ofClass (bareClass (.ofText "I"))]⟩]
    (.classType ⟨[.ofText "a"], .ofText "Map"⟩
      (.unbounded (.exactly (.ofClass (bareClass (.ofText "B")))
        (.bounded .upper (.ofClass (bareClass (.ofText "C"))) .noMore)))
      (.inner (.ofText "Inner")
        (.exactly (.array (.reference (.ofClass (bareClass (.ofText "D"))))) .noMore) .close))
    [bareClass (.ofText "J")]

/-- The class behind the wildcard without a bound is not found, all others are. -/
theorem classes_of_form_map :
    (∀ name ∈ mapForm.scanned, name.Quiet) ∧
    mapForm.text = "<K:La/A;V::La/I;>La/Map<*La/B;+La/C;>.Inner<[La/D;>;La/J;" ∧
    mapForm.outermost = ["a/A", "a/I", "a/Map", "a/B", "a/C", "a/D", "a/J"] ∧
    ListsOnce ["a/A", "a/I", "a/Map", "a/C", "a/D", "a/J"] (classes mapForm.text) := by
  have hquiet : ∀ name ∈ mapForm.scanned, name.Quiet := by decide
  have hm : mapForm.mistaken = false := by decide
  exact ⟨hquiet, by decide, by decide, (classes_of_form mapForm hquiet).2.1 hm⟩

/-- A class type that comes directly after a base type is not seen. -/
theorem classes_behind_base :
    ∃ form : Form, form.text = "(ILa/B;)V" ∧ form.outermost = ["a/B"] ∧
      ¬ListsOnce form.outermost (classes form.text) := by
  refine ⟨.ofMethod [] [.base .int, .reference (.ofClass (bareClass (.ofText "B")))] none [],
    by decide, by decide, fun h => ?_⟩
  have hmem := (h.mem_iff "a/B").mpr (by decide)
  revert hmem
  decide +kernel

end Signature

end Winnow
