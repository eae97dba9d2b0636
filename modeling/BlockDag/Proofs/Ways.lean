/-
Where names lead. They are followed from directory to directory and on from where links lead; this is settled
by what is seen, goes on from the directory that the first names lead to, and stays the same as long as no
directory is lost and no link comes or goes.
-/
import BlockDag.Proofs.Places

namespace BlockDag

/-- Where the path of a link in this directory begins: here, or at the start. -/
def Place.turn (place : Place) (target : Path) : Place := if target.head? = some "" then [] else place

theorem Place.above_isPrefix (place : Place) : place.above <+: place := by
  unfold Place.above
  split
  · exact List.prefix_rfl
  · exact List.dropLast_prefix place

theorem Place.turn_isPrefix (place : Place) (target : Path) : place.turn target <+: place := by
  unfold Place.turn
  split
  · exact List.nil_prefix
  · exact List.prefix_rfl

/-- A name that has to be looked up. -/
structure Proper (name : String) : Prop where
  ne_here : name ≠ "."
  ne_above : name ≠ ".."
  short : ¬ NameTooLong name

/-- What is seen is no directory and no link, so that no names lead on from it. -/
def Final (s : Option Sight) : Prop := s ≠ some .directory ∧ ∀ target, s ≠ some (.link target)

/-- Followed by what is seen, names lead from a place to the place `goal`, over no more than so many links. -/
inductive Walks (sight? : Place → Option Sight) (goal : Place) : (links : Nat) → Place → List String → Prop
  | done {links : Nat} : Walks sight? goal links goal []
  | here {links : Nat} {place : Place} {name : String} {rest : List String} :
      name = "." → Walks sight? goal links place rest → Walks sight? goal links place (name :: rest)
  | above {links : Nat} {place : Place} {name : String} {rest : List String} :
      name = ".." → Walks sight? goal links place.above rest → Walks sight? goal links place (name :: rest)
  | down {links : Nat} {place : Place} {name : String} {rest : List String} :
      Proper name → sight? (place ++ [name]) = some .directory →
        Walks sight? goal links (place ++ [name]) rest → Walks sight? goal links place (name :: rest)
  | jump {links : Nat} {place : Place} {name : String} {rest : List String} {target : Path} :
      Proper name → sight? (place ++ [name]) = some (.link target) →
        Walks sight? goal links (place.turn target) (steps target ++ rest) →
          Walks sight? goal (links + 1) place (name :: rest)
  | last {links : Nat} {place : Place} {name : String} :
      Proper name → Final (sight? (place ++ [name])) → place ++ [name] = goal → Walks sight? goal links place [name]

namespace Walks

variable {sight? later? : Place → Option Sight} {links : Nat} {place goal : Place} {name : String}
variable {names rest : List String}

theorem nil_iff : Walks sight? goal links place [] ↔ place = goal :=
  ⟨fun h => by cases h; rfl, fun h => h ▸ .done⟩

theorem here_iff : Walks sight? goal links place ("." :: rest) ↔ Walks sight? goal links place rest := by
  refine ⟨fun h => ?_, .here rfl⟩
  cases h with
  | here _ h => exact h
  | above hn => exact absurd hn (by decide)
  | down hn => exact absurd rfl hn.ne_here
  | jump hn => exact absurd rfl hn.ne_here
  | last hn => exact absurd rfl hn.ne_here

theorem above_iff : Walks sight? goal links place (".." :: rest) ↔ Walks sight? goal links place.above rest := by
  refine ⟨fun h => ?_, .above rfl⟩
  cases h with
  | here hn => exact absurd hn (by decide)
  | above _ h => exact h
  | down hn => exact absurd rfl hn.ne_above
  | jump hn => exact absurd rfl hn.ne_above
  | last hn => exact absurd rfl hn.ne_above

/-- A name that has to be looked up leads down to a directory, on from a link, or nowhere else. -/
theorem cons_iff (hn : Proper name) : Walks sight? goal links place (name :: rest) ↔
    sight? (place ++ [name]) = some .directory ∧ Walks sight? goal links (place ++ [name]) rest ∨
      (∃ target left, sight? (place ++ [name]) = some (.link target) ∧ links = left + 1 ∧
        Walks sight? goal left (place.turn target) (steps target ++ rest)) ∨
      Final (sight? (place ++ [name])) ∧ rest = [] ∧ place ++ [name] = goal := by
  constructor
  · intro h
    cases h with
    | here he => exact absurd he hn.ne_here
    | above he => exact absurd he hn.ne_above
    | down _ hs h => exact .inl ⟨hs, h⟩
    | jump _ hs h => exact .inr (.inl ⟨_, _, hs, rfl, h⟩)
    | last _ hs he => exact .inr (.inr ⟨hs, rfl, he⟩)
  · rintro (⟨hs, h⟩ | ⟨target, left, hs, rfl, h⟩ | ⟨hs, rfl, he⟩)
    · exact .down hn hs h
    · exact .jump hn hs h
    · exact .last hn hs he

theorem down_iff (hn : Proper name) (hs : sight? (place ++ [name]) = some .directory) :
    Walks sight? goal links place (name :: rest) ↔ Walks sight? goal links (place ++ [name]) rest := by
  simp [cons_iff hn, hs, Final]

theorem jump_iff {target : Path} (hn : Proper name) (hs : sight? (place ++ [name]) = some (.link target)) :
    Walks sight? goal (links + 1) place (name :: rest) ↔
      Walks sight? goal links (place.turn target) (steps target ++ rest) := by
  simp [cons_iff hn, hs, Final]

theorem last_iff (hn : Proper name) (hs : Final (sight? (place ++ [name]))) :
    Walks sight? goal links place (name :: rest) ↔ rest = [] ∧ place ++ [name] = goal := by
  simp [cons_iff hn, hs.1, hs.2, hs]

/-- Where names lead is led to as long as no directory is lost and no link comes or goes. -/
theorem mono (h : Walks sight? goal links place names)
    (hd : ∀ place, sight? place = some .directory → later? place = some .directory)
    (hl : ∀ place target, later? place = some (.link target) ↔ sight? place = some (.link target)) :
    Walks later? goal links place names := by
  induction h with
  | done => exact .done
  | here hn _ ih => exact .here hn ih
  | above hn _ ih => exact .above hn ih
  | down hn hs _ ih => exact .down hn (hd _ hs) ih
  | jump hn hs _ ih => exact .jump hn ((hl _ _).2 hs) ih
  | @last links place name hn hs he =>
    -- There may be a directory now, and the names end there.
    by_cases hdir : later? (place ++ [name]) = some .directory
    · exact .down hn hdir (he ▸ .done)
    · exact .last hn ⟨hdir, fun target ht => hs.2 target ((hl _ _).1 ht)⟩ he

/-- Names that come after others are followed from where those lead. -/
theorem split {front : List String} (h : Walks sight? goal links place (front ++ rest)) (hr : rest ≠ []) :
    ∃ middle left, ∀ more other, more ≠ [] →
      (Walks sight? other links place (front ++ more) ↔ Walks sight? other left middle more) := by
  generalize hnames : front ++ rest = names at h
  induction h generalizing front with
  | done => simp_all
  | @here links place name names hn _ ih =>
    cases front with
    | nil => exact ⟨place, links, fun _ _ _ => .rfl⟩
    | cons first front =>
      obtain ⟨rfl, rfl⟩ := List.cons.inj hnames
      obtain ⟨middle, left, h⟩ := ih rfl
      exact ⟨middle, left, fun more other hm => hn ▸ here_iff.trans (h more other hm)⟩
  | @above links place name names hn _ ih =>
    cases front with
    | nil => exact ⟨place, links, fun _ _ _ => .rfl⟩
    | cons first front =>
      obtain ⟨rfl, rfl⟩ := List.cons.inj hnames
      obtain ⟨middle, left, h⟩ := ih rfl
      exact ⟨middle, left, fun more other hm => hn ▸ above_iff.trans (h more other hm)⟩
  | @down links place name names hn hs _ ih =>
    cases front with
    | nil => exact ⟨place, links, fun _ _ _ => .rfl⟩
    | cons first front =>
      obtain ⟨rfl, rfl⟩ := List.cons.inj hnames
      obtain ⟨middle, left, h⟩ := ih rfl
      exact ⟨middle, left, fun more other hm => (down_iff hn hs).trans (h more other hm)⟩
  | @jump links place name names target hn hs _ ih =>
    cases front with
    | nil => exact ⟨place, links + 1, fun _ _ _ => .rfl⟩
    | cons first front =>
      obtain ⟨rfl, rfl⟩ := List.cons.inj hnames
      obtain ⟨middle, left, h⟩ := ih (List.append_assoc (steps target) front rest)
      refine ⟨middle, left, fun more other hm => (jump_iff hn hs).trans ?_⟩
      exact List.append_assoc (steps target) front more ▸ h more other hm
  | @last links place name hn hs he =>
    cases front with
    | nil => exact ⟨place, links, fun _ _ _ => .rfl⟩
    | cons first front => simp_all

/-- The first names lead to a directory, if any come after them. -/
theorem front {front : List String} (h : Walks sight? goal links place (front ++ rest)) (hr : rest ≠ []) :
    ∃ middle, Walks sight? middle links place (front ++ ["."]) := by
  obtain ⟨middle, left, hsplit⟩ := h.split hr
  exact ⟨middle, (hsplit ["."] middle (by simp)).2 (.here rfl .done)⟩

/-- Further names are followed from the directory that the first ones lead to. -/
theorem append {front : List String} {middle : Place} (h : Walks sight? middle links place (front ++ ["."])) :
    ∃ left, ∀ more other, more ≠ [] →
      (Walks sight? other links place (front ++ more) ↔ Walks sight? other left middle more) := by
  obtain ⟨middle', left, hsplit⟩ := h.split (by simp)
  obtain rfl : middle' = middle := nil_iff.1 (here_iff.1 ((hsplit ["."] middle (by simp)).1 h))
  exact ⟨left, hsplit⟩

/-- What is led to is a directory, or has its name in one. -/
theorem ends (h : Walks sight? goal links place names)
    (hbelow : ∀ {place other}, place <+: other → sight? other = some .directory → sight? place = some .directory)
    (hplace : sight? place = some .directory) : sight? goal = some .directory ∨
      ∃ above name, goal = above ++ [name] ∧ sight? above = some .directory ∧ Final (sight? goal) := by
  induction h with
  | done => exact .inl hplace
  | here _ _ ih => exact ih hplace
  | above _ _ ih => exact ih (hbelow (Place.above_isPrefix _) hplace)
  | down _ hs _ ih => exact ih hs
  | jump _ _ _ ih => exact ih (hbelow (Place.turn_isPrefix _ _) hplace)
  | last _ hs he => exact .inr ⟨_, _, he.symm, hplace, he ▸ hs⟩

/-- Names that end by asking for a directory lead to one. -/
theorem directory (h : Walks sight? goal links place (names ++ ["."]))
    (hbelow : ∀ {place other}, place <+: other → sight? other = some .directory → sight? place = some .directory)
    (hplace : sight? place = some .directory) : sight? goal = some .directory := by
  generalize hasked : names ++ ["."] = asked at h
  induction h generalizing names with
  | done => exact hplace
  | here _ h ih =>
    cases names with
    | nil =>
      obtain ⟨-, rfl⟩ := List.cons.inj hasked
      exact nil_iff.1 h ▸ hplace
    | cons first names => exact ih hplace (List.cons.inj hasked).2
  | above hn _ ih =>
    cases names with
    | nil => exact absurd (hn.symm.trans (List.cons.inj hasked).1.symm) (by decide)
    | cons first names => exact ih (hbelow (Place.above_isPrefix _) hplace) (List.cons.inj hasked).2
  | down hn hs _ ih =>
    cases names with
    | nil => exact absurd (List.cons.inj hasked).1.symm hn.ne_here
    | cons first names => exact ih hs (List.cons.inj hasked).2
  | @jump _ _ _ _ target hn _ _ ih =>
    cases names with
    | nil => exact absurd (List.cons.inj hasked).1.symm hn.ne_here
    | cons first names =>
      obtain ⟨-, rfl⟩ := List.cons.inj hasked
      exact ih (hbelow (Place.turn_isPrefix _ _) hplace) (List.append_assoc (steps target) names ["."])
  | last hn =>
    cases names with
    | nil => exact absurd (List.cons.inj hasked).1.symm hn.ne_here
    | cons first names => simp at hasked

/-- A directory that is led to can be asked for. -/
theorem ask (h : Walks sight? goal links place names) (hd : sight? goal = some .directory) :
    Walks sight? goal links place (names ++ ["."]) := by
  induction h with
  | done => exact .here rfl .done
  | here hn _ ih => exact .here hn ih
  | above hn _ ih => exact .above hn ih
  | down hn hs _ ih => exact .down hn hs ih
  | @jump _ _ _ rest target hn hs _ ih => exact .jump hn hs (List.append_assoc (steps target) rest ["."] ▸ ih)
  | last _ hs he => exact absurd (he ▸ hd) hs.1

/-! ## Going down -/

/-- Names of directories lead down to the last of these. -/
theorem descend (hn : ∀ name ∈ names, Proper name)
    (hbelow : ∀ {place other}, place <+: other → sight? other = some .directory → sight? place = some .directory)
    (hs : names ≠ [] → sight? (place ++ names) = some .directory) :
    Walks sight? goal links place (names ++ rest) ↔ Walks sight? goal links (place ++ names) rest := by
  induction names generalizing place with
  | nil => rw [List.nil_append, List.append_nil]
  | cons name names ih =>
    have hdown : sight? (place ++ [name]) = some .directory :=
      hbelow ((List.prefix_append_right_inj place).2 (List.prefix_append [name] names)) (hs (by simp))
    rw [List.cons_append, down_iff (hn name (by simp)) hdown, ih (fun name hm => hn name (by simp [hm]))
      fun _ => by simpa using hs (by simp), List.append_assoc, List.singleton_append]

/-- Where no link is met, names that others come after are those of directories. -/
theorem descended (h : Walks sight? goal links place (names ++ rest)) (hr : rest ≠ [])
    (hn : ∀ name ∈ names, Proper name) (hplace : sight? place = some .directory)
    (hl : ∀ front target, front <+: names → sight? (place ++ front) ≠ some (.link target)) :
    sight? (place ++ names) = some .directory := by
  induction names generalizing place with
  | nil => rwa [List.append_nil]
  | cons name names ih =>
    rcases (cons_iff (hn name (by simp))).1 h with ⟨hs, h⟩ | ⟨target, left, hs, -⟩ | ⟨-, hnil, -⟩
    · rw [List.append_cons]
      exact ih h (fun name hm => hn name (by simp [hm])) hs fun front target hf => by
        simpa using hl (name :: front) target (by simpa using hf)
    · exact absurd hs (hl [name] target (by simp))
    · simp [hr] at hnil

end Walks

namespace Way

/-- The directories passed are those at their places. -/
def Passed (entries : Entries) : List (String × Entries) → Prop
  | [] => True
  | (name, inner) :: passed =>
    entries.at? ((passed.map (·.1)).reverse ++ [name]) = some (.directory inner) ∧ Passed entries passed

/-- The directories on the way are those at their places. -/
def Sound (way : Way) : Prop := Passed way.start way.passed

theorem Sound.at?_place {way : Way} (h : way.Sound) : way.start.at? way.place = some (.directory way.entries) := by
  obtain ⟨start, passed⟩ := way
  cases passed with
  | nil => rfl
  | cons step passed => simpa [place, entries] using h.1

theorem Sound.above {way : Way} (h : way.Sound) : way.above.Sound := by
  unfold Way.above
  split
  · exact h
  · obtain ⟨start, passed⟩ := way
    cases passed with
    | nil => exact h
    | cons step passed => exact h.2

theorem place_above (way : Way) : way.above.place = way.place.above := by
  unfold Way.above Place.above
  split
  · rfl
  · obtain ⟨start, passed⟩ := way
    cases passed <;> simp [place]

theorem start_above (way : Way) : way.above.start = way.start := by
  unfold Way.above
  split <;> rfl

theorem Sound.turn {way : Way} (h : way.Sound) (target : Path) : (way.turn target).Sound := by
  unfold Way.turn
  split
  · trivial
  · exact h

theorem place_turn (way : Way) (target : Path) : (way.turn target).place = way.place.turn target := by
  unfold Way.turn Place.turn
  split <;> rfl

theorem start_turn (way : Way) (target : Path) : (way.turn target).start = way.start := by
  unfold Way.turn
  split <;> rfl

theorem place_down (way : Way) (name : String) (inner : Entries) :
    (way.down name inner).place = way.place ++ [name] := by
  simp [place, down]

theorem start_down (way : Way) (name : String) (inner : Entries) : (way.down name inner).start = way.start := rfl

theorem Sound.get? {way : Way} (h : way.Sound) (name : String) :
    (way.entries.get? name).map FileNode.sight = way.start.sight? (way.place ++ [name]) := by
  rw [← Entries.sight?_singleton, Entries.sight?, Entries.sight?, Entries.at?_append h.at?_place]

theorem Sound.down {way : Way} (h : way.Sound) {name : String} {inner : Entries}
    (hi : way.entries.get? name = some (.directory inner)) : (way.down name inner).Sound := by
  refine ⟨?_, h⟩
  change way.start.at? (way.place ++ [name]) = _
  rw [Entries.at?_append h.at?_place, Entries.at?_of_get? hi]

theorem Sound.followBy_iff {way : Way} (h : way.Sound) {links : Nat} {goal : Place}
    {jump : Way → List String → Except FileError Place}
    (hj : ∀ way' : Way, way'.Sound → way'.start = way.start → ∀ names, jump way' names = .ok goal ↔
      ∃ left, links = left + 1 ∧ Walks way.start.sight? goal left way'.place names) {names : List String} :
    way.followBy jump names = .ok goal ↔ Walks way.start.sight? goal links way.place names := by
  induction names generalizing way with
  | nil => rw [followBy, Except.ok.injEq, Walks.nil_iff]
  | cons name names ih =>
    rw [followBy]
    split
    · next hhere => rw [hhere, Walks.here_iff, ih h hj]
    split
    · next habove => rw [habove, Walks.above_iff, ← place_above, ih h.above (by rwa [start_above]), start_above]
    split
    · next hlong =>
      refine ⟨fun he => (by cases he), fun hw => ?_⟩
      cases hw with
      | here he => exact absurd he ‹_›
      | above he => exact absurd he ‹_›
      | down hn => exact absurd hlong hn.short
      | jump hn => exact absurd hlong hn.short
      | last hn => exact absurd hlong hn.short
    next hhere habove hshort =>
    rw [Walks.cons_iff ⟨hhere, habove, hshort⟩, ← h.get? name]
    cases hg : way.entries.get? name with
    | none => by_cases hr : names = [] <;> simp [Final, hr]
    | some node =>
      cases node with
      | directory inner =>
        refine (ih (h.down hg) hj).trans ?_
        simp [FileNode.sight, Final, place_down, start_down]
      | link target =>
        refine (hj (way.turn target) (h.turn target) (start_turn way target) _).trans ?_
        simp [FileNode.sight, Final, place_turn]
      | file _ => by_cases hr : names = [] <;> simp [FileNode.sight, Final, hr]
      | shared _ => by_cases hr : names = [] <;> simp [FileNode.sight, Final, hr]

/-- Where names lead depends on what is seen alone. -/
theorem Sound.follow_iff {way : Way} (h : way.Sound) {links : Nat} {names : List String} {goal : Place} :
    way.follow links names = .ok goal ↔ Walks way.start.sight? goal links way.place names := by
  induction links generalizing way names with
  | zero => exact h.followBy_iff (by simp)
  | succ links ih => exact h.followBy_iff fun way' hs he names => by simp [ih hs, he]

end Way

end BlockDag
