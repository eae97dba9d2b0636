/-
What the calls on a file tree do to what is seen in it. Names lead to a place; a call that is given them
reads what is seen there, or changes what is seen at one place and nothing else.
-/
import BlockDag.Proofs.Ways
import Mathlib.Algebra.BigOperators.Group.List.Basic
import Mathlib.Algebra.GroupWithZero.Nat

namespace BlockDag

open Function (update)

/-- A name that stands for nothing but what has it, and which anything can have. -/
structure Plain (name : String) : Prop extends Proper name where
  ne_empty : name ≠ ""

/-! ## Text in files -/

namespace Bytes

theorem toList_loop_eq (bytes : ByteArray) (i : Nat) (front : List UInt8) :
    ByteArray.toList.loop bytes i front = front.reverse ++ bytes.data.toList.drop i := by
  fun_induction ByteArray.toList.loop bytes i front with
  | case1 i front hi ih =>
    have hi' : i < bytes.data.toList.length := by simpa using hi
    have hget : bytes.get! i = bytes.data.toList[i] := by
      simp only [ByteArray.get!, Array.getElem_toList]
      exact getElem!_pos bytes.data i (by simpa using hi)
    rw [ih, List.drop_eq_getElem_cons hi', hget, List.reverse_cons, List.append_assoc, List.singleton_append]
  | case2 i front hi => rw [List.drop_eq_nil_of_le (by simpa using hi), List.append_nil]

/-- Text reads back from its encoding. -/
theorem toString?_ofString (text : String) : toString? (ofString text) = some text := by
  have hbytes : ByteArray.mk (ofString text).toArray = text.toByteArray := by
    rw [ofString, ByteArray.toList, toList_loop_eq]
    simp
  rw [toString?, hbytes, String.fromUTF8?, dif_pos text.isValidUTF8]
  rfl

end Bytes

/-! ## Lengths and slashes -/

theorem pathTooLong_iff (p : Path) :
    PathTooLong p ↔ 4095 < p.length - 1 + (p.map String.utf8ByteSize).sum := by
  have h : ∀ (names : List String) (n : Nat),
      names.foldl (fun size name => size + name.utf8ByteSize) n = n + (names.map String.utf8ByteSize).sum := by
    intro names
    induction names with
    | nil => simp
    | cons name names ih => intro n; simp [ih, Nat.add_assoc]
  rw [PathTooLong, h]

/-- The path down to a directory on the way is no longer. -/
theorem PathTooLong.append {p : Path} (h : PathTooLong p) (names : List String) : PathTooLong (p ++ names) := by
  rw [pathTooLong_iff] at h ⊢
  simp only [List.map_append, List.sum_append, List.length_append]
  omega

theorem dropSlash_concat (dir : Path) {name : String} (hn : name ≠ "") :
    dropSlash (dir ++ [name]) = dir ++ [name] := by
  simp [dropSlash, EndsInSlash, hn]

theorem not_endsInSlash_concat (dir : Path) {name : String} (hn : name ≠ "") : ¬ EndsInSlash (dir ++ [name]) := by
  simp [EndsInSlash, hn]

theorem dropSlash_isPrefix (p : Path) : dropSlash p <+: p := by
  unfold dropSlash
  split
  · exact List.dropLast_prefix p
  · exact List.prefix_rfl

theorem dropSlash_of_not {p : Path} (h : ¬ EndsInSlash p) : dropSlash p = p := if_neg h

theorem dropSlash_of_slash {p : Path} (h : EndsInSlash p) : dropSlash p = p.dropLast := if_pos h

theorem steps_of_not {p : Path} (h : ¬ EndsInSlash p) : steps p = p := if_neg h

namespace FileTree

variable {t t' : FileTree} {p : Path} {dir names : List String} {place goal : Place} {name : String}

/-- What is seen at a place. -/
def sight? (t : FileTree) : Place → Option Sight := t.entries.sight?

/-- The names in the directory at a place; none if there is none. -/
def namesAt (t : FileTree) : Place → List String := t.entries.namesAt

/-- The names lead to a directory, and this is its place. -/
def Leads (t : FileTree) (names : List String) (place : Place) : Prop :=
  Way.follow maxLinks ⟨t.entries, []⟩ (names ++ ["."]) = .ok place

/-- No link is seen at a place some names further down, nor on the way there. -/
def Straight (t : FileTree) (place : Place) (names : List String) : Prop :=
  ∀ front target, front <+: names → t.sight? (place ++ front) ≠ some (.link target)

theorem sight?_of_isPrefix {other : Place} (hp : place <+: other) (hd : t.sight? other = some .directory) :
    t.sight? place = some .directory := Entries.sight?_of_isPrefix hd hp

theorem follow_iff :
    Way.follow maxLinks ⟨t.entries, []⟩ names = .ok place ↔ Walks t.sight? place maxLinks [] names := by
  have hsound : Way.Sound ⟨t.entries, []⟩ := trivial
  exact hsound.follow_iff

theorem leads_iff : t.Leads names place ↔ Walks t.sight? place maxLinks [] (names ++ ["."]) := follow_iff

theorem Leads.sight?_eq (h : t.Leads names place) : t.sight? place = some .directory :=
  (leads_iff.1 h).directory sight?_of_isPrefix rfl

theorem Leads.mono (h : t.Leads names place)
    (hd : ∀ other, t.sight? other = some .directory → t'.sight? other = some .directory)
    (hl : ∀ other target, t'.sight? other = some (.link target) ↔ t.sight? other = some (.link target)) :
    t'.Leads names place := leads_iff.2 ((leads_iff.1 h).mono hd hl)

/-- Names lead to one place. -/
theorem Leads.unique {other : Place} (h : t.Leads names place) (h' : t.Leads names other) : place = other :=
  Except.ok.inj (h.symm.trans h')

/-- Further names are followed from the directory that the first ones lead to. -/
theorem Leads.walks_append (h : t.Leads dir place) : ∃ left, ∀ more goal, more ≠ [] →
    (Walks t.sight? goal maxLinks [] (dir ++ more) ↔ Walks t.sight? goal left place more) := (leads_iff.1 h).append

/-- The first names lead to a directory, if more are followed after them. -/
theorem leads_of_walks (h : Walks t.sight? goal maxLinks [] (dir ++ names)) (hn : names ≠ []) :
    ∃ place, t.Leads dir place := by
  obtain ⟨place, h⟩ := h.front hn
  exact ⟨place, leads_iff.2 h⟩

theorem Leads.of_isPrefix {front : List String} (h : t.Leads names place) (hp : front <+: names) :
    ∃ above, t.Leads front above := by
  obtain ⟨rest, rfl⟩ := hp
  exact leads_of_walks (by simpa using leads_iff.1 h) (by simp)

/-- From a directory plain names lead down to the directory they name. -/
theorem Leads.down (h : t.Leads dir place) (hn : ∀ name ∈ names, Plain name)
    (hs : t.sight? (place ++ names) = some .directory) : t.Leads (dir ++ names) (place ++ names) := by
  obtain ⟨left, hw⟩ := h.walks_append
  rw [leads_iff, List.append_assoc, hw _ _ (by simp),
    Walks.descend (fun name hm => (hn name hm).toProper) sight?_of_isPrefix fun _ => hs]
  exact .here rfl .done

/-- Where there is no link they lead nowhere else. -/
theorem leads_append (h : t.Leads dir place) (hn : ∀ name ∈ names, Plain name) (hl : t.Straight place names) :
    t.Leads (dir ++ names) goal ↔ t.sight? (place ++ names) = some .directory ∧ goal = place ++ names := by
  constructor
  · intro hg
    obtain ⟨left, hw⟩ := h.walks_append
    have hgoal := (hw (names ++ ["."]) goal (by simp)).1 (by simpa using leads_iff.1 hg)
    have hs := hgoal.descended (by simp) (fun name hm => (hn name hm).toProper) h.sight?_eq hl
    exact ⟨hs, hg.unique (h.down hn hs)⟩
  · rintro ⟨hs, rfl⟩
    exact h.down hn hs

theorem enter_eq_ok : t.enter p names = .ok place ↔ ¬ PathTooLong p ∧ t.Leads names place := by
  rw [enter]
  split <;> simp_all [Leads]

/-! ## Reading -/

theorem locate_eq_ok : t.locate p = .ok place ↔
    p ≠ [] ∧ ¬ PathTooLong p ∧ Walks t.sight? place maxLinks [] (steps p) := by
  rw [locate, ← follow_iff]
  split
  · simp_all
  split <;> simp_all

/-- The last name of a path may have anything or nothing, but a link there is followed. -/
theorem locate_of_leads (hl : ¬ PathTooLong (dir ++ [name])) (h : t.Leads dir place) (hn : Plain name)
    (hs : ∀ target, t.sight? (place ++ [name]) ≠ some (.link target)) :
    t.locate (dir ++ [name]) = .ok (place ++ [name]) := by
  obtain ⟨left, hw⟩ := h.walks_append
  rw [locate_eq_ok, steps_of_not (not_endsInSlash_concat dir hn.ne_empty), hw _ _ (by simp)]
  refine ⟨by simp, hl, ?_⟩
  by_cases hd : t.sight? (place ++ [name]) = some .directory
  · exact .down hn.toProper hd .done
  · exact .last hn.toProper ⟨hd, hs⟩ rfl

theorem resolve_of_leads (hl : ¬ PathTooLong (dir ++ [name])) (h : t.Leads dir place) (hn : Plain name) :
    t.resolve (dir ++ [name]) = .ok (place ++ [name]) := by
  have he : t.enter (dir ++ [name]) dir = .ok place := enter_eq_ok.2 ⟨hl, h⟩
  simp [resolve, he, bind, Except.bind, pure, Except.pure, hn.ne_here, hn.ne_above, hn.short,
    not_endsInSlash_concat dir hn.ne_empty]

theorem look_of_node (h : t.locate p = .ok place) {node : FileNode} (hn : t.node? place = some node) {found : Found}
    (hf : t.found? node = some found) : t.look p = .ok found := by
  simp [look, h, hn, hf, bind, Except.bind, pure, Except.pure]

theorem sight?_of_node {node : FileNode} (h : t.node? place = some node) : t.sight? place = some node.sight := by
  rw [sight?, Entries.sight?, ← node?, h]
  rfl

theorem sight?_eq_none : t.sight? place = none ↔ t.node? place = none := Option.map_eq_none_iff

/-- A file is what is seen of it. -/
theorem node?_of_file {content : Bytes} (hs : t.sight? place = some (.file content)) :
    t.node? place = some (.file content) := by
  obtain ⟨node, hn, he⟩ := Option.map_eq_some_iff.1 hs
  cases node <;> cases he
  exact hn

theorem node?_of_shared {number : Nat} (hs : t.sight? place = some (.shared number)) :
    t.node? place = some (.shared number) := by
  obtain ⟨node, hn, he⟩ := Option.map_eq_some_iff.1 hs
  cases node <;> cases he
  exact hn

theorem look_of_file (h : t.locate p = .ok place) {content : Bytes} (hs : t.sight? place = some (.file content)) :
    t.look p = .ok (.file content) := look_of_node h (node?_of_file hs) rfl

theorem look_of_shared (h : t.locate p = .ok place) {number : Nat} (hs : t.sight? place = some (.shared number)) :
    t.look p = .ok (.file (t.content number)) := look_of_node h (node?_of_shared hs) rfl

theorem look_of_directory (h : t.locate p = .ok place) (hs : t.sight? place = some .directory) :
    ∃ inner, t.look p = .ok (.directory inner) ∧ t.node? place = some (.directory inner) := by
  obtain ⟨inner, hi⟩ := Entries.exists_at?_of_sight? hs
  exact ⟨inner, look_of_node h hi rfl, hi⟩

theorem look_of_none (h : t.locate p = .ok place) (hs : t.sight? place = none) : t.look p = .error .notFound := by
  rw [sight?_eq_none] at hs
  simp [look, h, hs, bind, Except.bind]

theorem locate_of_look {found : Found} (h : t.look p = .ok found) :
    ∃ place node, t.locate p = .ok place ∧ t.node? place = some node ∧ t.found? node = some found := by
  cases hr : t.locate p with
  | error e => simp [look, hr, bind, Except.bind] at h
  | ok place =>
    cases hn : t.node? place with
    | none => simp [look, hr, hn, bind, Except.bind] at h
    | some node =>
      refine ⟨place, node, rfl, hn, ?_⟩
      cases hf : t.found? node <;> simp_all [look, bind, Except.bind, pure, Except.pure]

theorem exists_of_look {found : Found} (h : t.look p = .ok found) : t.Exists p := by
  rw [Exists, h]
  rfl

theorem look_of_exists (h : t.Exists p) : ∃ found, t.look p = .ok found := by
  cases hl : t.look p with
  | error e => simp [Exists, hl, Except.isOk, Except.toBool] at h
  | ok found => exact ⟨found, rfl⟩

/-- There is something at the end of a path just if something is seen there that is no link. -/
theorem exists_iff (h : t.locate p = .ok place) (hl : ∀ target, t.sight? place ≠ some (.link target)) :
    t.Exists p ↔ t.sight? place ≠ none := by
  constructor
  · intro he hs
    rw [Exists, look_of_none h hs] at he
    simp [Except.isOk, Except.toBool] at he
  · intro hs
    obtain ⟨sight, hn⟩ := Option.ne_none_iff_exists'.1 hs
    cases sight with
    | file content => exact exists_of_look (look_of_file h hn)
    | shared number => exact exists_of_look (look_of_shared h hn)
    | link target => exact absurd hn (hl target)
    | directory =>
      obtain ⟨_, hlook, -⟩ := look_of_directory h hn
      exact exists_of_look hlook

/-- What is found to be a directory is led to. -/
theorem leads_of_look {inner : Entries} (h : t.look p = .ok (.directory inner)) :
    ∃ place, t.Leads (dropSlash p) place ∧ t.node? place = some (.directory inner) := by
  obtain ⟨place, node, hr, hn, hf⟩ := locate_of_look h
  cases node <;> cases hf
  obtain ⟨-, -, hw⟩ := locate_eq_ok.1 hr
  refine ⟨place, leads_iff.2 ?_, hn⟩
  by_cases hs : EndsInSlash p
  · rwa [steps, if_pos hs, ← dropSlash_of_slash hs] at hw
  · rw [steps_of_not hs] at hw
    rw [dropSlash_of_not hs]
    exact hw.ask (Entries.sight?_of_at? hn)

/-- Something that is found under a plain name is seen there, unless there is a link. -/
theorem exists_concat_iff (h : t.Leads dir place) (hn : Plain name)
    (hs : ∀ target, t.sight? (place ++ [name]) ≠ some (.link target)) :
    t.Exists (dir ++ [name]) ↔ ¬ PathTooLong (dir ++ [name]) ∧ t.sight? (place ++ [name]) ≠ none := by
  constructor
  · intro he
    obtain ⟨found, hlook⟩ := look_of_exists he
    obtain ⟨_, _, hr, -⟩ := locate_of_look hlook
    have hl := (locate_eq_ok.1 hr).2.1
    exact ⟨hl, (exists_iff (locate_of_leads hl h hn hs) hs).1 he⟩
  · rintro ⟨hl, he⟩
    exact (exists_iff (locate_of_leads hl h hn hs) hs).2 he

theorem leads_of_exists (hn : Plain name) (h : t.Exists (dir ++ [name])) : ∃ place, t.Leads dir place := by
  obtain ⟨found, hlook⟩ := look_of_exists h
  obtain ⟨_, _, hr, -⟩ := locate_of_look hlook
  obtain ⟨-, -, hw⟩ := locate_eq_ok.1 hr
  rw [steps_of_not (not_endsInSlash_concat dir hn.ne_empty)] at hw
  exact leads_of_walks hw (by simp)

/-- Something that is found some plain names further down from a directory is seen there. -/
theorem exists_append_iff (h : t.Leads dir place) (hn : ∀ name ∈ names, Plain name) (hne : names ≠ [])
    (hl : t.Straight place names) :
    t.Exists (dir ++ names) ↔ ¬ PathTooLong (dir ++ names) ∧ t.sight? (place ++ names) ≠ none := by
  obtain ⟨front, name, rfl⟩ := List.eq_nil_or_concat' names |>.resolve_left hne
  have hfront : ∀ name ∈ front, Plain name := fun name hm => hn name (by simp [hm])
  have hlast : ∀ target, t.sight? (place ++ front ++ [name]) ≠ some (.link target) := fun target => by
    simpa using hl (front ++ [name]) target List.prefix_rfl
  rw [← List.append_assoc, ← List.append_assoc]
  constructor
  · intro he
    obtain ⟨middle, hm⟩ := leads_of_exists (hn name (by simp)) he
    obtain ⟨-, rfl⟩ := (leads_append h hfront fun down target hd =>
      hl down target (hd.trans (List.prefix_append front [name]))).1 hm
    exact (exists_concat_iff hm (hn name (by simp)) hlast).1 he
  · intro he
    have hm := h.down hfront (Entries.sight?_of_below he.2 (by simp))
    exact (exists_concat_iff hm (hn name (by simp)) hlast).2 he

/-- Where something is seen some plain names further down, the path leads there. -/
theorem locate_append (hl : ¬ PathTooLong (dir ++ names)) (h : t.Leads dir place)
    (hn : ∀ name ∈ names, Plain name) (hne : names ≠ []) (hs : t.sight? (place ++ names) ≠ none)
    (hlink : ∀ target, t.sight? (place ++ names) ≠ some (.link target)) :
    t.locate (dir ++ names) = .ok (place ++ names) := by
  obtain ⟨front, name, rfl⟩ := List.eq_nil_or_concat' names |>.resolve_left hne
  rw [← List.append_assoc] at hl hs hlink ⊢
  rw [← List.append_assoc]
  exact locate_of_leads hl (h.down (fun name hm => hn name (by simp [hm])) (Entries.sight?_of_below hs (by simp)))
    (hn name (by simp)) hlink

theorem names_of_leads (hl : ¬ PathTooLong (dir ++ [name])) (h : t.Leads dir place) (hn : Plain name)
    (hs : t.sight? (place ++ [name]) = some .directory) : t.names (dir ++ [name]) = t.namesAt (place ++ [name]) := by
  obtain ⟨inner, hlook, hi⟩ := look_of_directory (locate_of_leads hl h hn (by simp [hs])) hs
  rw [node?] at hi
  rw [names, hlook, namesAt, Entries.namesAt, hi]
  rfl

/-! ## Changing what is seen at one place -/

/-- After a change another thing is seen at one place, and no directory has a name twice that had none. What is
in files with several names stays what it was. -/
structure Sets (t t' : FileTree) (place : Place) (s : Option Sight) : Prop where
  sight : t'.sight? = update t.sight? place s
  shared : t'.shared = t.shared
  nodup : ∀ other, (t.namesAt other).Nodup → (t'.namesAt other).Nodup

theorem sets_put {node : FileNode} (hb : node.Bare) (hp : t.sight? place = some .directory)
    (hn : t.sight? (place ++ [name]) ≠ some .directory) :
    Sets t { t with entries := t.entries.put node (place ++ [name]) } (place ++ [name]) (some node.sight) where
  sight := Entries.sight?_put hb hp hn
  shared := rfl
  nodup _ := Entries.nodup_namesAt_put hb

theorem sets_remove (hp : t.sight? place = some .directory) (hn : t.sight? (place ++ [name]) ≠ some .directory) :
    Sets t { t with entries := t.entries.remove (place ++ [name]) } (place ++ [name]) none where
  sight := Entries.sight?_remove hp hn
  shared := rfl
  nodup _ := Entries.nodup_namesAt_remove

/-- A change where no directory is takes none away. -/
theorem Sets.keeps {s : Option Sight} (h : Sets t t' place s) (hn : t.sight? place ≠ some .directory) {other : Place}
    (hd : t.sight? other = some .directory) : t'.sight? other = some .directory := by
  rw [h.sight, Function.update_of_ne, hd]
  rintro rfl
  exact hn hd

/-- Nor is a link lost or made where none was and none is. -/
theorem Sets.link_iff {s : Option Sight} (h : Sets t t' place s) (hn : ∀ target, t.sight? place ≠ some (.link target))
    (hs : ∀ target, s ≠ some (.link target)) (other : Place) (target : Path) :
    t'.sight? other = some (.link target) ↔ t.sight? other = some (.link target) := by
  by_cases ho : other = place
  · rw [ho, h.sight, Function.update_self]
    exact iff_of_false (hs target) (hn target)
  · rw [h.sight, Function.update_of_ne ho]

/-- Nor is a file given another name. -/
theorem Sets.numbers {s : Option Sight} (h : Sets t t' place s) (hs : ∀ number, s ≠ some (.shared number))
    {other : Place} {number : Nat} (ho : t'.sight? other = some (.shared number)) :
    t.sight? other = some (.shared number) := by
  by_cases he : other = place
  · rw [he, h.sight, Function.update_self] at ho
    exact absurd ho (hs number)
  · rwa [h.sight, Function.update_of_ne he] at ho

theorem Sets.leads {s : Option Sight} {other : Place} (h : Sets t t' place s) (hn : Final (t.sight? place))
    (hs : ∀ target, s ≠ some (.link target)) (hlead : t.Leads names other) : t'.Leads names other :=
  hlead.mono (fun _ => h.keeps hn.1) (h.link_iff hn.2 hs)

theorem Sets.trans {t'' : FileTree} {s s' : Option Sight} (h : Sets t t' place s) (h' : Sets t' t'' place s') :
    Sets t t'' place s' where
  sight := by rw [h'.sight, h.sight, Function.update_idem]
  shared := h'.shared.trans h.shared
  nodup other ho := h'.nodup other (h.nodup other ho)

/-! ## Writing and moving files -/

/-- Nothing is seen, or a file that has no other name. -/
def Free (s : Option Sight) : Prop := s = none ∨ ∃ content, s = some (.file content)

theorem Free.final {s : Option Sight} (h : Free s) : Final s := by
  rcases h with rfl | ⟨content, rfl⟩ <;> simp [Final]

theorem Free.not_shared {s : Option Sight} (h : Free s) (number : Nat) : s ≠ some (.shared number) := by
  rcases h with rfl | ⟨content, rfl⟩ <;> simp

theorem free_or_shared {s : Option Sight} (h : Final s) : Free s ∨ ∃ number, s = some (.shared number) := by
  cases s with
  | none => exact .inl (.inl rfl)
  | some sight =>
    cases sight with
    | file content => exact .inl (.inr ⟨content, rfl⟩)
    | shared number => exact .inr ⟨number, rfl⟩
    | link target => exact absurd rfl (h.2 target)
    | directory => exact absurd rfl h.1

theorem free_file (content : Bytes) : Free (some (.file content)) := .inr ⟨content, rfl⟩

theorem fill_of_free (hs : Free (t.sight? place)) (content : Bytes) :
    t.fill place content = { t with entries := t.entries.put (.file content) place } := by
  rw [fill]
  split
  · next number hn => exact absurd (sight?_of_node hn) (hs.not_shared number)
  · rfl

/-- A file that is filled is seen in its place. -/
theorem sets_fill (hp : t.sight? place = some .directory) (hs : Free (t.sight? (place ++ [name]))) (content : Bytes) :
    Sets t (t.fill (place ++ [name]) content) (place ++ [name]) (some (.file content)) := by
  rw [fill_of_free hs]
  exact sets_put (FileNode.bare_of_sight (by simp [FileNode.sight])) hp hs.final.1

/-- Filled a second time it shows the second content. -/
theorem sets_refill (hp : t.sight? place = some .directory) (hs : Free (t.sight? (place ++ [name])))
    (first content : Bytes) : Sets t ((t.fill (place ++ [name]) first).fill (place ++ [name]) content)
      (place ++ [name]) (some (.file content)) := by
  have hfirst := sets_fill hp hs first
  exact hfirst.trans (sets_fill (hfirst.keeps hs.final.1 hp) (by simp [hfirst.sight, free_file]) content)

/-- A file is made, or what was in it is gone. -/
theorem create_of_leads (hl : ¬ PathTooLong (dir ++ [name])) (h : t.Leads dir place) (hn : Plain name)
    (hs : ∀ target, t.sight? (place ++ [name]) ≠ some (.link target)) :
    t.create (dir ++ [name]) = if t.sight? (place ++ [name]) = some .directory then .error .isDirectory
      else .ok (place ++ [name], t.fill (place ++ [name]) []) := by
  rw [create, if_neg (not_endsInSlash_concat dir hn.ne_empty), locate_of_leads hl h hn hs]
  simp only [bind, Except.bind, pure, Except.pure]
  split
  · next inner hd => exact (if_pos (sight?_of_node hd)).symm
  · next hd =>
    rw [if_neg fun hdir => ?_]
    obtain ⟨inner, hi⟩ := Entries.exists_at?_of_sight? hdir
    exact hd inner hi

/-- A file that is created is at the end of its path, where no directory is. -/
theorem create_eq_ok (h : t.create p = .ok (place, t')) :
    t.locate p = .ok place ∧ t.sight? place ≠ some .directory ∧ t' = t.fill place [] := by
  rw [create] at h
  split at h
  · cases he : t.enter p p.dropLast.dropLast <;> simp [he, bind, Except.bind] at h
  cases hr : t.locate p with
  | error e => simp [hr, bind, Except.bind] at h
  | ok goal =>
    simp only [hr, bind, Except.bind, pure, Except.pure] at h
    split at h
    · cases h
    · next hd =>
      cases h
      refine ⟨rfl, fun hs => ?_, rfl⟩
      obtain ⟨inner, hi⟩ := Entries.exists_at?_of_sight? hs
      exact hd inner hi

/-- A file was filled in its place, and its content shows there; no directory is lost, and no link comes or goes. -/
structure Filled (t t' : FileTree) (place : Place) (content : Bytes) : Prop where
  keeps : ∀ other, t.sight? other = some .directory → t'.sight? other = some .directory
  links : ∀ other target, t'.sight? other = some (.link target) ↔ t.sight? other = some (.link target)
  found : (t'.node? place).bind t'.found? = some (.file content)

/-- What is filled can be filled again. -/
theorem Filled.final {content : Bytes} (h : Filled t t' place content) : Final (t'.sight? place) := by
  obtain ⟨node, hn, hf⟩ := Option.bind_eq_some_iff.1 h.found
  rw [sight?_of_node hn]
  cases node <;> simp_all [found?, FileNode.sight, Final]

theorem filled_fill (hp : t.sight? place = some .directory) (hs : Final (t.sight? (place ++ [name])))
    (content : Bytes) : Filled t (t.fill (place ++ [name]) content) (place ++ [name]) content := by
  rcases free_or_shared hs with hfree | ⟨number, hshared⟩
  · have hsets := sets_fill hp hfree content
    refine ⟨fun _ => hsets.keeps hs.1, hsets.link_iff hs.2 (by simp), ?_⟩
    rw [node?_of_file (by rw [hsets.sight, Function.update_self])]
    rfl
  · -- The entries stay as they are.
    have hn := node?_of_shared hshared
    have hfill : t.fill (place ++ [name]) content = { t with shared := t.shared.insert number content } := by
      rw [fill, hn]
    rw [hfill]
    refine ⟨fun _ => id, fun _ _ => .rfl, ?_⟩
    change (t.node? (place ++ [name])).bind _ = _
    rw [hn]
    simp [found?, FileTree.content, Table.get?_insert]

/-- What was written to a file that was created is what is found there. -/
theorem look_of_create {made : FileTree} (h : t.create p = .ok (place, made)) (content : Bytes) :
    (made.fill place content).look p = .ok (.file content) := by
  obtain ⟨hr, hdir, rfl⟩ := create_eq_ok h
  obtain ⟨hp, hl, hw⟩ := locate_eq_ok.1 hr
  obtain ⟨above, name, rfl, habove, hfinal⟩ := (hw.ends sight?_of_isPrefix rfl).resolve_left hdir
  have hfirst := filled_fill habove hfinal []
  have hfinal' : Final ((t.fill (above ++ [name]) []).sight? (above ++ [name])) := hfirst.final
  have hsecond := filled_fill (hfirst.keeps _ habove) hfinal' content
  have hr' : ((t.fill (above ++ [name]) []).fill (above ++ [name]) content).locate p = .ok (above ++ [name]) :=
    locate_eq_ok.2 ⟨hp, hl, hw.mono (fun _ hd => hsecond.keeps _ (hfirst.keeps _ hd)) fun other target =>
      (hsecond.links other target).trans (hfirst.links other target)⟩
  obtain ⟨node, hn, hf⟩ := Option.bind_eq_some_iff.1 hsecond.found
  exact look_of_node hr' hn hf

/-- Moving a file to where no directory is, within one directory. -/
theorem rename_ok {goal : String} {content : Bytes} (hl : ¬ PathTooLong (dir ++ [name]))
    (hl' : ¬ PathTooLong (dir ++ [goal])) (h : t.Leads dir place) (hn : Plain name) (hn' : Plain goal)
    (hf : t.sight? (place ++ [name]) = some (.file content))
    (hs : t.sight? (place ++ [goal]) ≠ some .directory) :
    ∃ between t', t.rename (dir ++ [name]) (dir ++ [goal]) = .ok t' ∧
      Sets t between (place ++ [name]) none ∧ Sets between t' (place ++ [goal]) (some (.file content)) := by
  have hnode := node?_of_file hf
  have hremove : Sets t _ (place ++ [name]) none := sets_remove h.sight?_eq (by simp [hf])
  refine ⟨_, { t with entries := (t.entries.remove (place ++ [name])).put (.file content) (place ++ [goal]) },
    ?_, hremove, sets_put (FileNode.bare_of_sight (by simp [FileNode.sight])) ?_ ?_⟩
  · rw [rename, resolve_of_leads hl h hn, resolve_of_leads hl' h hn']
    simp only [bind, Except.bind, pure, Except.pure, hnode]
    cases hg : t.node? (place ++ [goal]) with
    | none => simp [FileNode.Shares]
    | some node =>
      cases node with
      | directory inner => exact absurd (sight?_of_node hg) hs
      | file _ => simp [FileNode.Shares]
      | shared _ => simp [FileNode.Shares]
      | link _ => simp [FileNode.Shares]
  · rw [hremove.sight, Function.update_of_ne (by simp)]
    exact h.sight?_eq
  · rw [hremove.sight]
    by_cases he : goal = name
    · simp [he]
    · rwa [Function.update_of_ne (by simpa using he)]

end FileTree

end BlockDag
