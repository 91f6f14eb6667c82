import Winnow.Incremental
import Winnow.Proofs.Pruning.Emission

/-!
# How far emission reaches

The file of a class is found from the output directory by the name of the class, taken as a path.
A path that turns back no further than it has come leads inside every directory, and no other path
does. Emission changes files at the places of the classes it is about, whether it is finished or
breaks off, and the sweep after it clears away what lies inside the directory. So emission stays
inside as long as the names of the classes do, and two names have one file only if they resolve to
the same one.
-/
namespace Winnow

open FileSystem

/-! ## Places and the paths that lead to them -/

namespace Place

variable {place xs : Place} {c : Component}

theorem names_cons (s : String) (place : Place) : names (s :: place) =
    if s = "/" then place else (s :: place).dropWhile (· = "..") := by
  simp [names]

theorem names_append (h : ∀ s ∈ xs.head?, s ≠ ".." ∧ s ≠ "/") :
    names (place ++ xs) = names place ++ xs := by
  cases xs with
  | nil => rw [List.append_nil, List.append_nil]
  | cons x xs =>
    obtain ⟨hup, hroot⟩ := h x rfl
    cases place with
    | nil => simp [names, hup, hroot]
    | cons s place =>
      rw [List.cons_append, names_cons, names_cons]
      split
      · rfl
      · rw [← List.cons_append, List.dropWhile_append]
        split
        next hnil => simp [List.isEmpty_iff.mp hnil, hup]
        next => rfl

/-- A place that lies in directories has all the names of each of them. -/
theorem names_subset_append (place xs : Place) : names place ⊆ names (place ++ xs) := by
  cases place with
  | nil => exact List.nil_subset _
  | cons s place =>
    rw [List.cons_append, names_cons, names_cons]
    split
    · exact List.subset_append_left place xs
    · rw [← List.cons_append, List.dropWhile_append]
      split
      next hnil =>
        rw [List.isEmpty_iff.mp hnil]
        exact List.nil_subset _
      next => exact List.subset_append_left _ xs

theorem parent_append (hne : xs ≠ []) (h : ∀ s ∈ xs.head?, s ≠ ".." ∧ s ≠ "/") :
    parent (place ++ xs) = place ++ xs.dropLast := by
  have hnames : names (place ++ xs) ≠ [] := by
    rw [names_append h]
    exact List.append_ne_nil_of_right_ne_nil _ hne
  rw [parent, if_pos hnames, List.dropLast_append_of_ne_nil hne]

/-- The place lies strictly inside another one. -/
def IsInside (place root : Place) : Prop :=
  ∃ xs, xs ≠ [] ∧ (∀ s ∈ xs, s ≠ ".." ∧ s ≠ "/") ∧ place = root ++ xs

/-- Whatever is a name on the way could stand between slashes. -/
def IsProper (place : Place) : Prop := ∀ s ∈ names place, Path.IsSegment s

instance (place : Place) : Decidable place.IsProper :=
  inferInstanceAs (Decidable (∀ s ∈ names place, Path.IsSegment s))

theorem IsProper.of_append (h : IsProper (place ++ xs)) : IsProper place :=
  fun s hs => h s (names_subset_append place xs hs)

/-- Going up from where no names are left does not bring any. -/
theorem names_concat_up (hnames : names place = []) (hroot : place.head? ≠ some "/") :
    names (place ++ [".."]) = [] := by
  cases place with
  | nil => rfl
  | cons s place =>
    have hs : s ≠ "/" := fun hs => hroot (by rw [hs, List.head?_cons])
    rw [names_cons, if_neg hs] at hnames
    rw [List.cons_append, names_cons, if_neg hs, ← List.cons_append, List.dropWhile_append, hnames]
    rfl

theorem IsProper.parent (h : IsProper place) : IsProper (parent place) := by
  unfold Place.parent
  split
  next hne =>
    have hplace : place ≠ [] := by
      rintro rfl
      exact hne rfl
    rw [← List.dropLast_concat_getLast hplace] at h
    exact h.of_append
  next hnil =>
    split
    next => exact h
    next hroot =>
      intro s hs
      rw [names_concat_up (not_not.mp hnil) hroot] at hs
      cases hs

theorem IsProper.step (h : IsProper place) (hc : ∀ s, c = .name s → Path.IsSegment s) :
    IsProper (c.step place) := by
  cases c with
  | root => exact List.forall_mem_nil _
  | here => exact h
  | parent => exact h.parent
  | name s =>
    have hs := hc s rfl
    intro t ht
    rw [Component.step, names_append (by simpa using hs.ne)] at ht
    rcases List.mem_append.mp ht with ht | ht
    · exact h t ht
    · rw [List.mem_singleton.mp ht]
      exact hs

end Place

namespace Path

variable {p : Path} {cs : List Component} {s : String}

theorem inner?_eq_some_name {segment : List Char} (h : inner? segment = some (.name s)) :
    IsName segment ∧ s = String.ofList segment := by
  unfold inner? at h
  split at h
  · cases h
  next hdot =>
    split at h
    · cases h
    next hup => exact ⟨⟨fun he => hdot (.inl he), fun he => hdot (.inr he), hup⟩,
        (Component.name.inj (Option.some.inj h)).symm⟩

/-- What begins a path, if not the first segment. -/
def lead (p : Path) : List Component :=
  if p.isAbsolute then [.root]
  else if (p.text.toList.splitOn '/').head? = some ['.'] then [.here]
  else []

theorem components_eq (p : Path) :
    p.components = p.lead ++ (p.text.toList.splitOn '/').filterMap inner? := by
  unfold components lead
  cases h : p.text.toList.splitOn '/' with
  | nil => exact absurd h (List.splitOn_ne_nil _ _)
  | cons first segments =>
    cases habs : p.isAbsolute with
    | true =>
      obtain ⟨l, hl⟩ := List.isPrefixOf_iff_prefix.mp habs
      have hfirst : first = [] := by
        have hsplit := splitOn_cons_slash l
        rw [show '/' :: l = p.text.toList from hl, h] at hsplit
        exact (List.cons.inj hsplit).1
      simp [hfirst, inner?]
    | false =>
      by_cases hdot : first = ['.']
      · simp [hdot, inner?]
      · cases hinner : inner? first <;> simp [hdot, hinner]

theorem isSegment_of_mem_components (h : .name s ∈ p.components) : IsSegment s := by
  rw [components_eq, List.mem_append] at h
  rcases h with h | h
  · unfold lead at h
    split at h
    · simp at h
    · split at h <;> simp at h
  · obtain ⟨segment, hmem, hinner⟩ := List.mem_filterMap.mp h
    obtain ⟨hname, rfl⟩ := inner?_eq_some_name hinner
    rw [IsSegment, String.toList_ofList]
    exact ⟨hname, not_mem_of_mem_splitOn hmem⟩

theorem foldl_step_lead (p : Path) (place : Place) : p.lead.foldl Component.step place =
    if p.isAbsolute then ["/"] else place := by
  unfold lead
  split
  · rfl
  · split <;> rfl

/-- A path is followed from where the one before it leads, unless it starts at the root. -/
theorem place_join (p : Path) (s : String) :
    (p / s).place = (components ⟨s⟩).foldl Component.step p.place := by
  by_cases habs : isAbsolute ⟨s⟩ = true
  · have hjoin : p / s = ⟨s⟩ := if_pos (.inl habs)
    rw [hjoin, place, components_eq, List.foldl_append, List.foldl_append, foldl_step_lead,
      foldl_step_lead, if_pos habs, if_pos habs]
  by_cases hp : p.text = ""
  · have hjoin : p / s = ⟨s⟩ := if_pos (.inr hp)
    rw [hjoin, place, place, components_of_text_eq_empty hp]
    rfl
  · rw [place, components_join_relative hp (by simpa using habs), List.foldl_append,
      components_eq ⟨s⟩, List.foldl_append, foldl_step_lead, if_neg habs]
    rfl

theorem isProper_foldl_step {place : Place} (h : place.IsProper)
    (hcs : ∀ s, .name s ∈ cs → IsSegment s) : (cs.foldl Component.step place).IsProper := by
  induction cs generalizing place with
  | nil => exact h
  | cons c cs ih =>
    have hstep : (c.step place).IsProper := h.step fun s hs => hcs s (hs ▸ List.mem_cons_self)
    exact ih hstep fun s hs => hcs s (List.mem_cons_of_mem c hs)

theorem isProper_place (p : Path) : p.place.IsProper :=
  isProper_foldl_step (List.forall_mem_nil _) fun _ => isSegment_of_mem_components

end Path

/-! ## Paths that stay inside -/

/-- A step from a place further in, unless it leads out. -/
def Component.inward? (xs : Place) : Component → Option Place
  | .root => none
  | .here => some xs
  | .parent => if xs = [] then none else some xs.dropLast
  | .name s => some (xs ++ [s])

/-- The names that a path leads on by from wherever it starts, unless it leaves that. -/
def Path.inward? (p : Path) : Option Place := p.components.foldlM Component.inward? []

namespace Place

variable {place root xs ys : Place} {c : Component}

theorem step_of_inward? (hc : ∀ s, c = .name s → Path.IsSegment s)
    (hxs : ∀ s ∈ xs, Path.IsSegment s) (h : c.inward? xs = some ys) :
    c.step (root ++ xs) = root ++ ys ∧ ∀ s ∈ ys, Path.IsSegment s := by
  cases c with
  | root => cases h
  | here =>
    cases h
    exact ⟨rfl, hxs⟩
  | parent =>
    obtain ⟨hne, hys⟩ := Option.ite_none_left_eq_some.mp h
    rw [← Option.some.inj hys]
    constructor
    · exact parent_append hne fun s hs => (hxs s (List.mem_of_mem_head? hs)).ne
    · exact fun s hs => hxs s ((List.dropLast_sublist xs).subset hs)
  | name s =>
    cases h
    constructor
    · exact List.append_assoc root xs [s]
    · intro t ht
      rcases List.mem_append.mp ht with ht | ht
      · exact hxs t ht
      · exact hc t (by rw [List.mem_singleton.mp ht])

/-- The way starts at the root or further up. -/
def StartsElsewhere (place : Place) : Prop :=
  place.head? = some ".." ∨ place.head? = some "/"

theorem StartsElsewhere.not_isInside (h : StartsElsewhere place) : ¬ IsInside place [] := by
  rintro ⟨xs, -, hxs, rfl⟩
  rcases h with h | h
  · exact (hxs _ (List.mem_of_mem_head? h)).1 rfl
  · exact (hxs _ (List.mem_of_mem_head? h)).2 rfl

/-- From up there, no step leads back. -/
theorem StartsElsewhere.step (h : StartsElsewhere place) : StartsElsewhere (c.step place) := by
  obtain ⟨s, rest, rfl⟩ : ∃ s rest, place = s :: rest := by
    apply List.exists_cons_of_ne_nil
    rintro rfl
    simp [StartsElsewhere] at h
  cases c with
  | root => exact .inr rfl
  | here => exact h
  | name t => exact h
  | parent =>
    show StartsElsewhere (parent (s :: rest))
    unfold parent
    split
    next hnames =>
      cases rest with
      | nil =>
        refine absurd ?_ hnames
        rcases h with h | h <;> cases h <;> rfl
      | cons t rest => exact h
    next =>
      split
      · exact h
      · exact h

/-- A step that leads out starts anew. -/
theorem startsElsewhere_of_inward? (h : c.inward? xs = none) : StartsElsewhere (c.step xs) := by
  cases c with
  | root => exact .inr rfl
  | here => cases h
  | name s => cases h
  | parent =>
    by_cases hxs : xs = []
    · subst hxs
      exact .inl rfl
    · rw [Component.inward?, if_neg hxs] at h
      cases h

end Place

namespace Path

variable {cs : List Component} {place root xs ys : Place}

theorem startsElsewhere_foldl_step (h : place.StartsElsewhere) :
    (cs.foldl Component.step place).StartsElsewhere := by
  induction cs generalizing place with
  | nil => exact h
  | cons c cs ih => exact ih h.step

section Following

variable (hcs : ∀ s, .name s ∈ cs → IsSegment s) (hxs : ∀ s ∈ xs, IsSegment s)
include hcs hxs

theorem foldl_step_of_inward? (h : cs.foldlM Component.inward? xs = some ys) :
    cs.foldl Component.step (root ++ xs) = root ++ ys ∧ ∀ s ∈ ys, IsSegment s := by
  induction cs generalizing xs with
  | nil =>
    cases h
    exact ⟨rfl, hxs⟩
  | cons c cs ih =>
    rw [List.foldlM_cons] at h
    obtain ⟨zs, hstep, hrest⟩ := Option.bind_eq_some_iff.mp h
    obtain ⟨hplace, hzs⟩ :=
      Place.step_of_inward? (fun s hs => hcs s (hs ▸ List.mem_cons_self)) hxs hstep
    rw [List.foldl_cons, hplace]
    exact ih (fun s hs => hcs s (List.mem_cons_of_mem c hs)) hzs hrest

/-- A path that leaves where it starts does not come back to it by name. -/
theorem startsElsewhere_of_foldlM (h : cs.foldlM Component.inward? xs = none) :
    (cs.foldl Component.step xs).StartsElsewhere := by
  induction cs generalizing xs with
  | nil => cases h
  | cons c cs ih =>
    rw [List.foldlM_cons] at h
    rw [List.foldl_cons]
    cases hstep : c.inward? xs with
    | none => exact startsElsewhere_foldl_step (Place.startsElsewhere_of_inward? hstep)
    | some zs =>
      obtain ⟨hplace, hzs⟩ :=
        Place.step_of_inward? (fun s hs => hcs s (hs ▸ List.mem_cons_self)) hxs hstep
      rw [hstep] at h
      rw [List.nil_append, List.nil_append] at hplace
      rw [hplace]
      exact ih (fun s hs => hcs s (List.mem_cons_of_mem c hs)) hzs h

end Following

end Path

/-! ## Work on files that may break off -/

namespace Disk

variable {ε α β : Type} {fs fs' : FileSystem} {places places' : List Place} {x : Disk ε α}

/-- Whether the work is done or breaks off, files come, change and go at the places only. -/
def ConfinedTo (x : Disk ε α) (places : List Place) : Prop :=
  ∀ fs, Touches fs (outcome x fs) places

theorem outcome_of_eq_ok {a : α} (h : x fs = .ok a fs') : outcome x fs = fs' := by
  rw [outcome, h]

theorem outcome_of_eq_error {e : ε} (h : x fs = .error e fs') : outcome x fs = fs' := by
  rw [outcome, h]

theorem outcome_bind (x : Disk ε α) (f : α → Disk ε β) (fs : FileSystem) :
    outcome (x >>= f) fs = outcome x fs ∨
      ∃ a fs₁, x fs = .ok a fs₁ ∧ outcome (x >>= f) fs = outcome (f a) fs₁ := by
  cases hx : x fs with
  | ok a fs₁ =>
    refine .inr ⟨a, fs₁, rfl, ?_⟩
    cases hf : f a fs₁ with
    | ok b fs₂ =>
      rw [outcome_of_eq_ok hf, outcome_of_eq_ok (bind_eq_ok_iff.mpr ⟨a, fs₁, hx, hf⟩)]
    | error e fs₂ =>
      rw [outcome_of_eq_error hf, outcome_of_eq_error (bind_eq_error_iff.mpr (.inr ⟨a, fs₁, hx, hf⟩))]
  | error e fs₁ =>
    rw [outcome_of_eq_error hx, outcome_of_eq_error (bind_eq_error_iff.mpr (.inl hx))]
    exact .inl rfl

namespace ConfinedTo

theorem mono (h : ConfinedTo x places) (hsub : ∀ q ∈ places, q ∈ places') :
    ConfinedTo x places' :=
  fun fs => (h fs).mono hsub

theorem pure (a : α) : ConfinedTo (Pure.pure a : Disk ε α) places := fun fs => .refl fs

theorem bind {f : α → Disk ε β} (hx : ConfinedTo x places) (hf : ∀ a, ConfinedTo (f a) places) :
    ConfinedTo (x >>= f) places := by
  intro fs
  rcases outcome_bind x f fs with h | ⟨a, fs₁, hok, h⟩
  · rw [h]
    exact hx fs
  · have hfirst := hx fs
    rw [outcome_of_eq_ok hok] at hfirst
    rw [h]
    exact hfirst.trans (hf a fs₁)

theorem change {act : FileSystem → Except FileError FileSystem} {fail : FileError → ε}
    (h : ∀ fs fs', act fs = .ok fs' → Touches fs fs' places) :
    ConfinedTo (Disk.change act fail) places := by
  intro fs
  cases hact : act fs with
  | ok fs' =>
    have hok : Disk.change act fail fs = .ok () fs' := change_eq_ok_iff.mpr hact
    rw [outcome_of_eq_ok hok]
    exact h fs fs' hact
  | error e =>
    have herror : Disk.change act fail fs = .error (fail e) fs := by rw [Disk.change, hact]
    rw [outcome_of_eq_error herror]
    exact .refl fs

theorem foldlM {f : β → α → Disk ε β} {items : List α} {b : β}
    (h : ∀ b, ∀ a ∈ items, ConfinedTo (f b a) places) : ConfinedTo (items.foldlM f b) places := by
  induction items generalizing b with
  | nil => exact pure b
  | cons a items ih =>
    rw [List.foldlM_cons]
    apply bind (h b a List.mem_cons_self)
    intro b'
    exact ih fun b a ha => h b a (List.mem_cons_of_mem _ ha)

end ConfinedTo

end Disk

namespace OutputDirectory

open Disk IncrementalRun

variable {o : OutputDirectory} {fs : FileSystem} {name name' : String} {names : Place}

theorem confinedTo_write (o : OutputDirectory) (u : CompiledUnit) :
    ConfinedTo (o.write u) [(o.path u.name).place] := by
  unfold write
  apply ConfinedTo.bind
  · exact .change fun fs fs' h => (createParents_spec h).1.mono nofun
  intro _
  apply ConfinedTo.bind
  · exact .change fun fs fs' h => (FileSystem.write_spec h).1
  intro _
  exact .pure _

theorem confinedTo_delete (o : OutputDirectory) (name : String) :
    ConfinedTo (o.delete name) [(o.path name).place] := by
  intro fs
  cases hr : fs.remove (o.path name) with
  | ok fs' =>
    have hok : o.delete name fs = .ok true fs' := by
      unfold delete
      dsimp only
      rw [hr]
    rw [outcome_of_eq_ok hok]
    exact (remove_spec hr).1
  | error e =>
    have hsame : outcome (o.delete name) fs = fs := by
      unfold outcome delete
      dsimp only
      rw [hr]
      cases e <;> rfl
    rw [hsame]
    exact .refl fs

theorem confinedTo_emitUnit (o : OutputDirectory) (p : Pruning) (stats : EmitStats)
    (u : CompiledUnit) : ConfinedTo (o.emitUnit p stats u) [(o.path u.name).place] := by
  unfold emitUnit
  split
  next mask _ =>
    split
    · have hwrite := o.confinedTo_write (mask.apply u)
      rw [show (mask.apply u).name = u.name from rfl] at hwrite
      exact hwrite.bind fun _ => .pure _
    · exact (o.confinedTo_delete u.name).bind fun _ => .pure _
  next => exact (o.confinedTo_delete u.name).bind fun _ => .pure _

theorem confinedTo_emit (o : OutputDirectory) (p : Pruning) (units : List CompiledUnit) :
    ConfinedTo (o.emit p units) (o.unitPlaces units) := by
  apply ConfinedTo.foldlM
  intro stats u hu
  apply (o.confinedTo_emitUnit p stats u).mono
  intro q hq
  rw [List.mem_singleton.mp hq]
  exact List.mem_map_of_mem hu

theorem confinedTo_retract (o : OutputDirectory) (names : List String) :
    ConfinedTo (o.retract names) (names.map fun name => (o.path name).place) := by
  apply ConfinedTo.foldlM
  intro count name hname
  apply ConfinedTo.mono ((o.confinedTo_delete name).bind fun _ => .pure _)
  intro q hq
  rw [List.mem_singleton.mp hq]
  exact List.mem_map_of_mem hname

theorem confinedTo_carryOut (o : OutputDirectory) (plan : EmitPlan) :
    ConfinedTo (EmitPlan.carryOut plan o)
      ((plan.units.map (·.name) ++ plan.retracted).map fun name => (o.path name).place) := by
  have hunits : (plan.units.map (·.name)).map (fun name => (o.path name).place) =
      o.unitPlaces plan.units := by
    simp only [unitPlaces, List.map_map, Function.comp_def]
  rw [List.map_append, hunits]
  unfold EmitPlan.carryOut
  apply ConfinedTo.bind
  · exact (o.confinedTo_emit plan.pruning plan.units).mono fun _ => List.mem_append_left _
  intro stats
  apply ConfinedTo.bind
  · exact (o.confinedTo_retract plan.retracted).mono fun _ => List.mem_append_right _
  intro deleted
  exact .pure _

/-- The names that lead from an output directory to the file of a class, unless they lead out. -/
def inside? (name : String) : Option Place := Path.inward? ⟨name ++ ".unit.json"⟩

theorem place_path_of_inside? (h : inside? name = some names) :
    (o.path name).place = o.root.place ++ names ∧ ∀ s ∈ names, Path.IsSegment s := by
  have hfollow : (Path.components ⟨name ++ ".unit.json"⟩).foldl Component.step (o.root.place ++ []) =
      o.root.place ++ names ∧ ∀ s ∈ names, Path.IsSegment s :=
    Path.foldl_step_of_inward? (fun _ => Path.isSegment_of_mem_components) (List.forall_mem_nil _) h
  rwa [List.append_nil, ← Path.place_join] at hfollow

/-- A path ends in the name of the file. -/
theorem exists_components_eq_concat (name : String) :
    ∃ cs s, Path.components ⟨name ++ ".unit.json"⟩ = cs ++ [.name s] := by
  obtain ⟨init, y, hy⟩ := Path.exists_splitOn_append (t := ".unit.json".toList) name.toList (by decide)
  rw [Path.components_eq, String.toList_append, hy, List.filterMap_append,
    List.filterMap_cons_some (Path.inner?_of_isName (isName_ending y)), ← List.append_assoc]
  exact ⟨_, _, rfl⟩

theorem ne_nil_of_inside? (h : inside? name = some names) : names ≠ [] := by
  obtain ⟨cs, s, hcs⟩ := exists_components_eq_concat name
  rw [inside?, Path.inward?, hcs, List.foldlM_append] at h
  obtain ⟨xs, _, hlast⟩ := Option.bind_eq_some_iff.mp h
  cases hlast
  exact List.concat_ne_nil s xs

theorem isInside_of_inside? (h : inside? name = some names) :
    (o.path name).place.IsInside o.root.place := by
  obtain ⟨hplace, hnames⟩ := place_path_of_inside? h
  exact ⟨names, ne_nil_of_inside? h, fun s hs => (hnames s hs).ne, hplace⟩

/-- The names that lead inside do so from every directory. -/
theorem isSome_inside?_iff : (inside? name).isSome = true ↔
    ∀ o : OutputDirectory, (o.path name).place.IsInside o.root.place := by
  constructor
  · intro h o
    obtain ⟨names, hnames⟩ := Option.isSome_iff_exists.mp h
    exact isInside_of_inside? hnames
  · intro h
    -- From the working directory itself, a name that leads out is told by how its place begins.
    cases hname : inside? name with
    | some names => rfl
    | none =>
      have helsewhere := Path.startsElsewhere_of_foldlM
        (fun _ => Path.isSegment_of_mem_components) (List.forall_mem_nil _) hname
      have hroot : Path.place ⟨""⟩ = [] := by decide
      have hinside := h ⟨⟨""⟩, true⟩
      rw [path, Path.place_join, hroot] at hinside
      exact absurd hinside helsewhere.not_isInside

theorem place_eq_iff (h : (inside? name).isSome = true) (h' : (inside? name').isSome = true) :
    (o.path name).place = (o.path name').place ↔ inside? name = inside? name' := by
  obtain ⟨names, hnames⟩ := Option.isSome_iff_exists.mp h
  obtain ⟨names', hnames'⟩ := Option.isSome_iff_exists.mp h'
  rw [(place_path_of_inside? hnames).1, (place_path_of_inside? hnames').1, hnames, hnames',
    List.append_cancel_left_eq, Option.some.injEq]

theorem isSome_inside?_of_isPlainName (h : IsPlainName name) : (inside? name).isSome = true := by
  apply isSome_inside?_iff.mpr
  intro o
  refine ⟨segments name, isUnitFile_ne_nil (isUnitFile_segments name), fun s hs => ?_, place_path h⟩
  exact (isPlainName_iff.mp h s hs).ne

/-- What the sweep finds lies inside the directory. -/
theorem isInside_of_mem_existing (hfs : ∀ place, fs.hasFile place = true → place.IsProper)
    (h : name ∈ o.existing fs) : (o.path name).place.IsInside o.root.place := by
  obtain ⟨names, hnames, hjoined⟩ := mem_existing_iff.mp h
  have hne := ne_nil_of_joined hjoined
  have hholds := Place.holds_append.mp (exists_of_mem_filesBelow hnames).1
  have hproper := hfs _ (hasFile_of_mem_filesBelow hnames hne)
  rw [Place.IsProper, Place.names_append hholds] at hproper
  have hsegment : ∀ s ∈ names, Path.IsSegment s := fun s hs => hproper s (List.mem_append_right _ hs)
  have hsegments := segments_of_joined (fun s hs => (hsegment s hs).2) hjoined
  have hplain : IsPlainName name := isPlainName_iff.mpr (hsegments ▸ hsegment)
  refine ⟨names, hne, fun s hs => (hsegment s hs).ne, ?_⟩
  rw [place_path hplain, hsegments]

/-- A full emission is about the units, and then about classes whose files lie inside. -/
theorem exists_touches_emitAll (o : OutputDirectory) (p : Pruning) (units : List CompiledUnit)
    (hfs : ∀ place, fs.hasFile place = true → place.IsProper) :
    ∃ stale : List String, (∀ name ∈ stale, (o.path name).place.IsInside o.root.place) ∧
      Touches fs (outcome (o.emitAll p units) fs)
        (o.unitPlaces units ++ stale.map fun name => (o.path name).place) := by
  have hemit := o.confinedTo_emit p units fs
  rcases outcome_bind (o.emit p units) _ fs with h | ⟨stats, fs₁, hok, h⟩
  · refine ⟨[], List.forall_mem_nil _, ?_⟩
    rw [emitAll, h]
    exact hemit.mono fun _ => List.mem_append_left _
  · rw [outcome_of_eq_ok hok] at hemit
    have hfs₁ : ∀ place, fs₁.hasFile place = true → place.IsProper := by
      intro place hfile
      by_cases hmem : place ∈ o.unitPlaces units
      · obtain ⟨u, _, rfl⟩ := List.mem_map.mp hmem
        exact Path.isProper_place _
      · rw [hemit.hasFile hmem] at hfile
        exact hfs place hfile
    refine ⟨(o.existing fs₁).filter fun name => !((p.graph.class? name).any (·.isProgram)),
      fun name hname => isInside_of_mem_existing hfs₁ (List.mem_of_mem_filter hname), ?_⟩
    have hsweep := ((o.confinedTo_retract ((o.existing fs₁).filter fun name =>
      !((p.graph.class? name).any (·.isProgram)))).bind fun deleted =>
        ConfinedTo.pure { stats with deleted := stats.deleted + deleted }) fs₁
    rw [emitAll, h]
    exact (hemit.mono fun _ => List.mem_append_left _).trans
      (hsweep.mono fun _ => List.mem_append_right _)

end OutputDirectory

/-! ## What emission changes -/

namespace FileSystem

variable {fs fs' : FileSystem} {place : Place} {places : List Place}

/-- The file at a place with the time of its last change. -/
def fileAt (fs : FileSystem) (place : Place) : Option (ByteArray × Nat) :=
  match fs.entryAt place with
  | some (.file content mtime) => some (content, mtime)
  | _ => none

theorem fileAt_eq_some_iff {content : ByteArray} {mtime : Nat} :
    fs.fileAt place = some (content, mtime) ↔ fs.entryAt place = some (.file content mtime) := by
  unfold fileAt
  split
  next h => simp [h]
  next h => simpa using h content mtime

theorem Touches.mem_of_fileAt_ne (h : Touches fs fs' places)
    (hne : fs'.fileAt place ≠ fs.fileAt place) : place ∈ places := by
  apply Classical.byContradiction
  intro hp
  refine hne (Option.ext fun ⟨content, mtime⟩ => ?_)
  rw [fileAt_eq_some_iff, fileAt_eq_some_iff, h.files place hp]

/-- All that there is lies where a path could lead. -/
def IsProper (fs : FileSystem) : Prop := ∀ key ∈ fs.entries.keys, Place.IsProper key

instance (fs : FileSystem) : Decidable fs.IsProper :=
  inferInstanceAs (Decidable (∀ key ∈ fs.entries.keys, Place.IsProper key))

end FileSystem

namespace OutputDirectory

open Disk IncrementalRun

variable {o : OutputDirectory} {p : Pruning} {units : List CompiledUnit} {fs : FileSystem}
  {place : Place}

/-- The place of the file of a class lies inside, unless the name of the class leads out. -/
theorem isInside_or_inside?_eq_none (o : OutputDirectory) (name : String) :
    (o.path name).place.IsInside o.root.place ∨ inside? name = none := by
  cases h : inside? name with
  | none => exact .inr rfl
  | some names => exact .inl (isInside_of_inside? h)

theorem isInside_of_emitAll (hfs : fs.IsProper)
    (h : (outcome (o.emitAll p units) fs).fileAt place ≠ fs.fileAt place) :
    place.IsInside o.root.place ∨
      ∃ u ∈ units, inside? u.name = none ∧ place = (o.path u.name).place := by
  obtain ⟨stale, hstale, htouches⟩ := o.exists_touches_emitAll p units
    fun place hfile => hfs place (mem_keys_of_hasFile hfile)
  rcases List.mem_append.mp (htouches.mem_of_fileAt_ne h) with hmem | hmem
  · obtain ⟨u, hu, rfl⟩ := List.mem_map.mp hmem
    exact (o.isInside_or_inside?_eq_none u.name).imp_right fun hnone => ⟨u, hu, hnone, rfl⟩
  · obtain ⟨name, hname, rfl⟩ := List.mem_map.mp hmem
    exact .inl (hstale name hname)

theorem isInside_of_carryOut {plan : EmitPlan}
    (h : (outcome (EmitPlan.carryOut plan o) fs).fileAt place ≠ fs.fileAt place) :
    place.IsInside o.root.place ∨ ∃ name ∈ plan.units.map (·.name) ++ plan.retracted,
      inside? name = none ∧ place = (o.path name).place := by
  obtain ⟨name, hname, rfl⟩ :=
    List.mem_map.mp ((o.confinedTo_carryOut plan fs).mem_of_fileAt_ne h)
  exact (o.isInside_or_inside?_eq_none name).imp_right fun hnone => ⟨name, hname, hnone, rfl⟩

/-- A file that a full or an incremental emission creates, changes or deletes, even one that breaks
off, lies strictly inside the output directory or is that of a class whose name leads out of it. The
names that do not are those that lead inside every directory, and of these the ones that resolve to
the same names share a file. Internal names lead inside and share none. -/
theorem emission_inside_or_named_out (o : OutputDirectory) {fs : FileSystem} (hfs : fs.IsProper) :
    (∀ (p : Pruning) (units : List CompiledUnit) (place : Place),
      (outcome (o.emitAll p units) fs).fileAt place ≠ fs.fileAt place →
        place.IsInside o.root.place ∨
          ∃ u ∈ units, inside? u.name = none ∧ place = (o.path u.name).place) ∧
    (∀ (plan : EmitPlan) (place : Place),
      (outcome (EmitPlan.carryOut plan o) fs).fileAt place ≠ fs.fileAt place →
        place.IsInside o.root.place ∨ ∃ name ∈ plan.units.map (·.name) ++ plan.retracted,
          inside? name = none ∧ place = (o.path name).place) ∧
    (∀ name, (inside? name).isSome = true ↔
      ∀ o : OutputDirectory, (o.path name).place.IsInside o.root.place) ∧
    (∀ name name', (inside? name).isSome = true → (inside? name').isSome = true →
      ((o.path name).place = (o.path name').place ↔ inside? name = inside? name')) ∧
    (∀ name, IsInternalName name → (inside? name).isSome = true) ∧
    ∀ name name', IsInternalName name → IsInternalName name' →
      (o.path name).place = (o.path name').place → name = name' := by
  refine ⟨fun p units place => isInside_of_emitAll hfs, fun plan place => isInside_of_carryOut,
    fun name => isSome_inside?_iff, fun name name' => place_eq_iff, fun name hn => ?_,
    fun name name' hn hn' => ?_⟩
  · exact isSome_inside?_of_isPlainName (isPlainName_of_isInternalName hn)
  · exact place_inj (isPlainName_of_isInternalName hn) (isPlainName_of_isInternalName hn')

end OutputDirectory

namespace Program

section Strays

open Disk

/-- A class whose name leads out of the directory of its file, and two with names for one file. -/
def strays : Program where
  platform := {}
  units := [⟨.blank "../notes", ⟨"in/notes.json"⟩⟩,
    ⟨{ CompiledUnit.blank "a//A" with methods := [.blank "main" "()V"] }, ⟨"in/A.json"⟩⟩,
    ⟨{ CompiledUnit.blank "a/A" with methods := [.blank "main" "()V"] }, ⟨"in/B.json"⟩⟩]
  libraries := []

def strayGraph : Graph := strays.complete strays.skeleton

def strayPruning : Pruning :=
  ⟨strayGraph, strayGraph.mark strayGraph.hierarchy fun n => n.profile.memberName = some "main", true⟩

/-- A directory with a file of a class that is no more, beside another file. -/
def strayDisk : FileSystem where
  entries := .ofList [
    (["notes.unit.json"], .file ⟨#[]⟩ 1),
    (["out"], .directory),
    (["out", "old.unit.json"], .file ⟨#[]⟩ 1)]

def strayOutput : OutputDirectory := ⟨⟨"out"⟩, true⟩

theorem notes_not_isInside : ¬ Place.IsInside ["notes.unit.json"] strayOutput.root.place := by
  have hroot : strayOutput.root.place = ["out"] := by decide +kernel
  rw [hroot]
  rintro ⟨xs, _, _, h⟩
  exact absurd (List.cons.inj h).1 (by decide)

/-- The file beside the directory is safe from classes with internal names. -/
theorem emission_inside_or_named_out_trio :
    strayDisk.IsProper ∧ (∀ s ∈ trio.units, IsInternalName s.unit.name) ∧
    (outcome (strayOutput.emitAll trioPruning (trio.units.map (·.unit))) strayDisk).fileAt
      ["notes.unit.json"] = strayDisk.fileAt ["notes.unit.json"] := by
  have hfacts : strayDisk.IsProper ∧ ∀ s ∈ trio.units, IsInternalName s.unit.name := by
    decide +kernel
  obtain ⟨hproper, hnames⟩ := hfacts
  refine ⟨hproper, hnames, Classical.byContradiction fun hne => ?_⟩
  obtain ⟨hfull, _, _, _, hinternal, _⟩ :=
    OutputDirectory.emission_inside_or_named_out strayOutput hproper
  rcases hfull _ _ _ hne with hinside | ⟨u, hu, hnone, _⟩
  · exact notes_not_isInside hinside
  · obtain ⟨s, hs, rfl⟩ := List.mem_map.mp hu
    have hsome := hinternal _ (hnames s hs)
    rw [hnone] at hsome
    cases hsome

/-- The units are well formed and the program is built, and yet a file beside the directory is
deleted, and two classes are written to one file. -/
theorem emission_of_strays :
    strays.Gathered ∧ (∀ s ∈ strays.units, s.unit.check = .ok ()) ∧ strays.build = .ok strayGraph ∧
    (∃ stats fs, strayOutput.emitAll strayPruning (strays.units.map (·.unit)) strayDisk =
        .ok stats fs ∧
      (strayDisk.fileAt ["notes.unit.json"]).isSome = true ∧
      (fs.fileAt ["notes.unit.json"]).isNone = true) ∧
    ¬ Place.IsInside ["notes.unit.json"] strayOutput.root.place ∧
    strayPruning.emits (strayPruning.mask? "a//A") = true ∧
    strayPruning.emits (strayPruning.mask? "a/A") = true ∧
    (strayOutput.path "a//A").place = (strayOutput.path "a/A").place := by
  have hgathered : strays.Gathered := gathered_iff.mpr ⟨by decide +kernel, by decide +kernel, by decide⟩
  have hbuild : strays.build = .ok strayGraph := build_of_edges_eq_nil (by decide +kernel)
  have hrun :
      let written := outcome (strayOutput.emit strayPruning (strays.units.map (·.unit))) strayDisk
      succeeds (strayOutput.emit strayPruning (strays.units.map (·.unit))) strayDisk = true ∧
      ((written.filesBelow strayOutput.root).filterMap fun names =>
        Text.withoutEnding ".unit.json" (Text.joined "/" names)) = ["a/A", "old"] ∧
      ["a/A", "old"].Pairwise (· ≤ ·) ∧
      ["a/A", "old"].filter (fun name =>
        !((strayPruning.graph.class? name).any (·.isProgram))) = ["old"] ∧
      succeeds (strayOutput.retract ["old"]) written = true ∧
      (strayDisk.fileAt ["notes.unit.json"]).isSome = true ∧
      ((outcome (strayOutput.retract ["old"]) written).fileAt ["notes.unit.json"]).isNone = true ∧
      strayPruning.emits (strayPruning.mask? "a//A") = true ∧
      strayPruning.emits (strayPruning.mask? "a/A") = true ∧
      (strayOutput.path "a//A").place = (strayOutput.path "a/A").place := by
    decide +kernel
  obtain ⟨hemit, hlisted, hsorted, hstale, hswept, hbefore, hafter, hplaces⟩ := hrun
  obtain ⟨stats, hemit⟩ := exists_ok_of_succeeds hemit
  obtain ⟨stats', hall⟩ := OutputDirectory.exists_emitAll hemit hlisted hsorted hstale hswept
  exact ⟨hgathered, fun s hs => (hgathered.admissible.units s hs).1, hbuild,
    ⟨stats', _, hall, hbefore, hafter⟩, notes_not_isInside, hplaces⟩

end Strays

end Program

end Winnow
