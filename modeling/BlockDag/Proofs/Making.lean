/-
Making directories. A directory is made in one that is there, where nothing is; with all those above it,
directories show on the path where nothing was, and nothing that was seen is lost.
-/
import BlockDag.Proofs.Calls

namespace BlockDag

/-- The directories that a path without `..` names, from the top. -/
def downward (p : Path) : Place := p.filter (· ≠ ".")

theorem downward_append (p q : Path) : downward (p ++ q) = downward p ++ downward q := List.filter_append ..

theorem downward_isPrefix {p q : Path} (h : p <+: q) : downward p <+: downward q := h.filter _

theorem downward_cons {name : String} (hn : name ≠ ".") (rest : Path) :
    downward (name :: rest) = name :: downward rest :=
  List.filter_cons_of_pos (by simp [hn])

/-- Without `..`, and where there is no link, names lead down only. -/
theorem Walks.downward {sight? : Place → Option Sight} {goal place : Place} {links : Nat} {names : List String}
    (h : Walks sight? goal links place names) (hu : ".." ∉ names)
    (hl : ∀ front target, front <+: BlockDag.downward names → sight? (place ++ front) ≠ some (.link target)) :
    goal = place ++ BlockDag.downward names := by
  induction h with
  | done => simp [BlockDag.downward]
  | @here _ _ name rest hn _ ih =>
    have hsame : BlockDag.downward (name :: rest) = BlockDag.downward rest :=
      List.filter_cons_of_neg (by simp [hn])
    rw [hsame] at hl ⊢
    exact ih (fun hm => hu (List.mem_cons_of_mem _ hm)) hl
  | above hn => exact absurd (hn ▸ List.mem_cons_self) hu
  | down hn _ _ ih =>
    rw [downward_cons hn.ne_here] at hl ⊢
    rw [ih (fun hm => hu (List.mem_cons_of_mem _ hm)) fun front target hf => by
      simpa using hl (_ :: front) target (by simpa using hf), List.append_assoc, List.singleton_append]
  | jump hn hs =>
    rw [downward_cons hn.ne_here] at hl
    exact absurd hs (hl [_] _ (by simp))
  | last hn _ he => rw [downward_cons hn.ne_here, ← he]; rfl

namespace FileTree

variable {t t' : FileTree} {r : Refusals} {p : Path} {dir names : List String} {place goal : Place} {name : String}

/-! ## One directory -/

/-- A directory is made in one that is there, where nothing is. -/
theorem makeDir_ok (h : t.makeDir p = .ok t') : ∃ dir name place, ¬ PathTooLong p ∧ dropSlash p = dir ++ [name] ∧
    t.Leads dir place ∧ Proper name ∧ t.sight? (place ++ [name]) = none ∧
    Sets t t' (place ++ [name]) (some .directory) := by
  rw [makeDir] at h
  split at h
  · simp at h
  · next name hn =>
    obtain ⟨dir, hd⟩ := List.getLast?_eq_some_iff.1 hn
    rw [hd, List.dropLast_concat] at h
    cases hw : t.enter p dir with
    | error e => simp [hw, bind, Except.bind] at h
    | ok place =>
      obtain ⟨hl, hlead⟩ := enter_eq_ok.1 hw
      simp only [hw, bind, Except.bind] at h
      split at h
      · simp at h
      split at h
      · simp at h
      split at h
      · simp at h
      · next hspecial hlong _ hg =>
        cases h
        have hs : t.sight? (place ++ [name]) = none := sight?_eq_none.2 hg
        exact ⟨dir, name, place, hl, hd, hlead, ⟨(not_or.1 hspecial).1, (not_or.1 hspecial).2, hlong⟩, hs,
          sets_put FileNode.bare_directory hlead.sight?_eq (by simp [hs])⟩

theorem makeDir_of_leads (hl : ¬ PathTooLong (dir ++ [name])) (h : t.Leads dir place) (hn : Plain name) :
    t.makeDir (dir ++ [name]) = if t.sight? (place ++ [name]) = none then
      .ok { t with entries := t.entries.put (.directory []) (place ++ [name]) } else .error .alreadyExists := by
  have he : t.enter (dir ++ [name]) dir = .ok place := enter_eq_ok.2 ⟨hl, h⟩
  rw [makeDir, dropSlash_concat dir hn.ne_empty, List.getLast?_concat, List.dropLast_concat, he]
  cases hg : t.node? (place ++ [name]) <;>
    simp [bind, Except.bind, hn.ne_here, hn.ne_above, hn.short, hg, pure, Except.pure, sight?_eq_none]

theorem ensureDir_ok (h : t.ensureDir r p = .ok t') : t' = t ∧ t.IsDirectory p ∨ t.makeDir p = .ok t' := by
  rw [ensureDir] at h
  split at h
  · next hm =>
    cases h
    exact .inr (unlessRefused_eq_ok.1 hm).2
  · split at h
    · cases h; exact .inl ⟨rfl, ‹_›⟩
    · simp at h

/-- A directory that is there need not be made, whatever is refused. -/
theorem ensureDir_of_directory (hl : ¬ PathTooLong (dir ++ [name])) (h : t.Leads dir place) (hn : Plain name)
    (hs : t.sight? (place ++ [name]) = some .directory) : t.ensureDir r (dir ++ [name]) = .ok t := by
  obtain ⟨inner, hlook, -⟩ := look_of_directory (locate_of_leads hl h hn (by simp [hs])) hs
  have hd : t.IsDirectory (dir ++ [name]) := ⟨inner, hlook⟩
  rw [ensureDir, makeDir_of_leads hl h hn, hs, if_neg (by simp)]
  cases r.makeDir t (dir ++ [name]) <;> simp [unlessRefused, hd]

theorem ensureDir_of_none (hl : ¬ PathTooLong (dir ++ [name])) (h : t.Leads dir place) (hn : Plain name)
    (hs : t.sight? (place ++ [name]) = none) :
    ∃ t', t.ensureDir .none (dir ++ [name]) = .ok t' ∧ Sets t t' (place ++ [name]) (some .directory) := by
  refine ⟨_, ?_, sets_put FileNode.bare_directory h.sight?_eq (by simp [hs])⟩
  rw [ensureDir, makeDir_of_leads hl h hn, if_pos hs]
  rfl

/-- What is ensured to be a directory is led to. -/
theorem ensureDir_concat_ok (hn : Plain name) (h : t.ensureDir r (dir ++ [name]) = .ok t') :
    ¬ PathTooLong (dir ++ [name]) ∧ ∃ goal, t'.Leads (dir ++ [name]) goal := by
  rcases ensureDir_ok h with ⟨rfl, inner, hlook⟩ | hmake
  · obtain ⟨_, _, hr, -⟩ := locate_of_look hlook
    obtain ⟨goal, hgoal, -⟩ := leads_of_look hlook
    rw [dropSlash_concat dir hn.ne_empty] at hgoal
    exact ⟨(locate_eq_ok.1 hr).2.1, goal, hgoal⟩
  · obtain ⟨front, last, place, hl, hp, hlead, -, hnone, hsets⟩ := makeDir_ok hmake
    rw [dropSlash_concat dir hn.ne_empty] at hp
    obtain ⟨rfl, hlast⟩ := List.append_inj' hp rfl
    obtain rfl := List.singleton_inj.1 hlast
    have hlead' := hsets.leads (by simp [hnone, Final]) (by simp) hlead
    exact ⟨hl, _, hlead'.down (by simpa using hn) (by simp [hsets.sight])⟩

/-! ## All directories on a path -/

theorem trimNames_concat (names : List String) (hn : Plain name) : trimNames (names ++ [name]) = names ++ [name] := by
  simp [trimNames, hn.ne_here, hn.ne_empty]

theorem trimNames_isPrefix (names : List String) : trimNames names <+: names := by
  have h := List.dropWhile_suffix (l := names.reverse) fun name => decide (name = "." ∨ name = "")
  simpa [trimNames] using List.reverse_prefix.2 h

theorem trimNames_getLast (names : List String) : (trimNames names).getLast? ≠ some "" := by
  rw [trimNames, List.getLast?_reverse]
  intro h
  have hn := List.head?_dropWhile_not (fun name => decide (name = "." ∨ name = "")) names.reverse
  rw [h] at hn
  simp at hn

/-- The path above is a beginning of the path, and has no slash at its end. -/
theorem parent?_isPrefix {q : Path} (h : parent? p = some q) : q <+: p ∧ ¬ EndsInSlash q := by
  unfold parent? at h
  split at h
  · simp at h
  · next first rest =>
    split at h
    · split at h
      · simp at h
      · cases h; simp [EndsInSlash]
    · next next more hn =>
      cases h
      have hp : trimNames (next :: more).dropLast <+: rest :=
        (trimNames_isPrefix _).trans ((List.dropLast_prefix _).trans (hn ▸ trimNames_isPrefix rest))
      refine ⟨by simpa using hp, ?_⟩
      rintro ⟨hl, he⟩
      have hlast := trimNames_getLast (next :: more).dropLast
      cases hm : trimNames (next :: more).dropLast with
      | nil => simp [hm] at hl
      | cons second names => exact hlast (by rw [hm]; simpa [hm] using he)

theorem parent?_concat_ne_none (dir : Path) (hn : Plain name) : parent? (dir ++ [name]) ≠ none := by
  cases dir with
  | nil => simp [parent?, trimNames, hn.ne_empty]
  | cons first dir =>
    simp only [List.cons_append, parent?, trimNames_concat dir hn]
    cases dir <;> simp

theorem makeDirs_of_ensureDir (h : t.ensureDir r p = .ok t') (hp : parent? p ≠ none) :
    t.makeDirsWithin r p = (.ok (), t') := by
  rw [makeDirsWithin]
  split
  · exact absurd ‹_› hp
  · rw [h]

/-- A directory that may be made or is there is seen afterwards; no more is changed. -/
theorem makeDirs_concat (hl : ¬ PathTooLong (dir ++ [name])) (h : t.Leads dir place) (hn : Plain name)
    (hs : t.sight? (place ++ [name]) = none ∨ t.sight? (place ++ [name]) = some .directory) :
    ∃ made, t.makeDirs (dir ++ [name]) = (.ok (), made) ∧ Sets t made (place ++ [name]) (some .directory) := by
  have hp := parent?_concat_ne_none dir hn
  rcases hs with hs | hs
  · obtain ⟨made, he, hsets⟩ := ensureDir_of_none hl h hn hs
    exact ⟨made, makeDirs_of_ensureDir he hp, hsets⟩
  · refine ⟨t, makeDirs_of_ensureDir (ensureDir_of_directory hl h hn hs) hp, ?_, rfl, fun _ => id⟩
    rw [← hs, Function.update_eq_self]

/-- Where the directory above is missing, it is made first. -/
theorem makeDirs_of_notFound {q : Path} {above : FileTree} (hp : parent? p = some q)
    (hn : t.ensureDir r p = .error .notFound) (hq : t.makeDirsWithin r q = (.ok (), above))
    (he : above.ensureDir r p = .ok t') : t.makeDirsWithin r p = (.ok (), t') := by
  rw [makeDirsWithin]
  split
  · simp_all
  · next q' hq' =>
    obtain rfl : q = q' := Option.some.inj (hp.symm.trans hq')
    simp only [hn, hq, he]

/-- Where all directories on a path were made, the last of them was, or was there. -/
theorem ensureDir_of_makeDirs (h : t.makeDirsWithin r p = (.ok (), t')) (hp : parent? p ≠ none) :
    ∃ between : FileTree, between.ensureDir r p = .ok t' := by
  rw [makeDirsWithin] at h
  split at h
  · exact absurd ‹_› hp
  · split at h
    · next he => cases h; exact ⟨t, he⟩
    · split at h
      · simp at h
      · split at h
        · next he => cases h; exact ⟨_, he⟩
        · simp at h
    · simp at h

/-- Directories are seen where nothing was, on the way to `top`, and all else is seen as before. -/
structure Grows (t t' : FileTree) (top : Place) : Prop where
  sight : ∀ place, t'.sight? place = t.sight? place ∨
    t.sight? place = none ∧ t'.sight? place = some .directory ∧ place <+: top
  shared : t'.shared = t.shared
  nodup : ∀ place, (t.namesAt place).Nodup → (t'.namesAt place).Nodup

theorem Grows.refl (t : FileTree) (top : Place) : Grows t t top := ⟨fun _ => .inl rfl, rfl, fun _ => id⟩

theorem Grows.trans {t'' : FileTree} {top : Place} (h : Grows t t' top) (h' : Grows t' t'' top) : Grows t t'' top where
  sight place := by
    rcases h.sight place with he | ⟨hn, hd, hp⟩
    · rw [← he]; exact h'.sight place
    · rcases h'.sight place with he' | ⟨hn', -, -⟩
      · exact .inr ⟨hn, he'.trans hd, hp⟩
      · simp [hd] at hn'
  shared := h'.shared.trans h.shared
  nodup place hd := h'.nodup place (h.nodup place hd)

theorem Grows.mono {top higher : Place} (h : Grows t t' higher) (hp : higher <+: top) : Grows t t' top where
  sight place := (h.sight place).imp id fun ⟨hn, hd, hh⟩ => ⟨hn, hd, hh.trans hp⟩
  shared := h.shared
  nodup := h.nodup

theorem Sets.grows (h : Sets t t' place (some .directory)) (hn : t.sight? place = none) : Grows t t' place where
  sight other := by
    by_cases he : other = place
    · subst he
      exact .inr ⟨hn, by simp [h.sight], List.prefix_rfl⟩
    · exact .inl (by rw [h.sight, Function.update_of_ne he])
  shared := h.shared
  nodup := h.nodup

/-- No directory is lost then, and no link comes or goes. -/
theorem Grows.keeps {top other : Place} (h : Grows t t' top) (hd : t.sight? other = some .directory) :
    t'.sight? other = some .directory := by
  rcases h.sight other with he | ⟨hn, -, -⟩
  · rw [he, hd]
  · simp [hn] at hd

theorem Grows.link_iff {top : Place} (h : Grows t t' top) (other : Place) (target : Path) :
    t'.sight? other = some (.link target) ↔ t.sight? other = some (.link target) := by
  rcases h.sight other with he | ⟨hn, hd, -⟩
  · rw [he]
  · simp [hn, hd]

theorem Grows.leads {top : Place} (h : Grows t t' top) (hlead : t.Leads names place) : t'.Leads names place :=
  hlead.mono (fun _ => h.keeps) h.link_iff

theorem Grows.straight {top : Place} (h : Grows t t' top) (hs : t.Straight place names) : t'.Straight place names :=
  fun front target hf hl => hs front target hf ((h.link_iff _ _).1 hl)

/-- From where a directory is found, names without `..` lead further down where there is no link. -/
theorem Leads.append_ok {rest : List String} (h : t.Leads dir place) (hu : ".." ∉ rest)
    (hl : t.Straight place (downward rest)) (hg : t.Leads (dir ++ rest) goal) : goal = place ++ downward rest := by
  obtain ⟨left, hw⟩ := h.walks_append
  have hgoal := (hw (rest ++ ["."]) goal (by simp)).1 (by simpa using leads_iff.1 hg)
  have hsame : downward (rest ++ ["."]) = downward rest := by simp [downward]
  rw [← hsame]
  exact hgoal.downward (by simp [hu]) (by rwa [hsame])

/-- Nothing is made of a directory that is there. -/
theorem makeDir_ne_ok_of_leads (h : t.Leads p place) (hs : ¬ EndsInSlash p) : t.makeDir p ≠ .ok t' := by
  intro hmake
  obtain ⟨dir, name, above, -, hp, hdir, hn, hnone, -⟩ := makeDir_ok hmake
  rw [dropSlash_of_not hs] at hp
  subst hp
  obtain ⟨left, hw⟩ := hdir.walks_append
  have hgoal := (hw [name, "."] place (by simp)).1 (by simpa using leads_iff.1 h)
  rw [Walks.last_iff hn (by simp [hnone, Final])] at hgoal
  simp at hgoal

theorem ensureDir_of_leads (h : t.Leads p place) (hs : ¬ EndsInSlash p) (he : t.ensureDir r p = .ok t') : t' = t := by
  rcases ensureDir_ok he with ⟨he, -⟩ | hmake
  · exact he
  · exact absurd hmake (makeDir_ne_ok_of_leads h hs)

/-- Nor is any made above one that is there. -/
theorem makeDirs_of_leads (h : t.Leads p place) (hs : ¬ EndsInSlash p) : (t.makeDirsWithin r p).2 = t := by
  -- The path above leads to a directory as well.
  have habove : ∀ {p q place}, parent? p = some q → t.Leads p place →
      (∀ {place}, t.Leads q place → ¬ EndsInSlash q → (t.makeDirsWithin r q).2 = t) →
        (t.makeDirsWithin r q).2 = t := by
    intro p q place hq h ih
    obtain ⟨hp, hs⟩ := parent?_isPrefix hq
    obtain ⟨above, hlead⟩ := h.of_isPrefix hp
    exact ih hlead hs
  fun_induction makeDirsWithin t r p generalizing place with
  | case1 => rfl
  | case2 p q hq later he => exact ensureDir_of_leads h hs he
  | case3 p q hq _ e later hm ih =>
    have hsame := habove hq h ih
    rwa [hm] at hsame
  | case4 p q hq _ later hm last he ih =>
    have hsame := habove hq h ih
    rw [hm] at hsame
    obtain rfl := hsame
    exact ensureDir_of_leads h hs he
  | case5 p q hq _ later hm e _ ih =>
    have hsame := habove hq h ih
    rwa [hm] at hsame
  | case6 => rfl

theorem ensureDir_grows {rest : List String} (h : t.Leads dir place) (hu : ".." ∉ rest)
    (hl : t.Straight place (downward rest)) (hs : ¬ EndsInSlash (dir ++ rest))
    (he : t.ensureDir r (dir ++ rest) = .ok t') : Grows t t' (place ++ downward rest) := by
  rcases ensureDir_ok he with ⟨rfl, -⟩ | hmake
  · exact .refl _ _
  rcases List.eq_nil_or_concat' rest with rfl | ⟨rest, name, rfl⟩
  · rw [List.append_nil] at hmake hs
    exact absurd hmake (makeDir_ne_ok_of_leads h hs)
  · obtain ⟨front, last, above, -, hp, hlead, hn, hnone, hsets⟩ := makeDir_ok hmake
    rw [dropSlash_of_not hs, ← List.append_assoc] at hp
    obtain ⟨rfl, hlast⟩ := List.append_inj' hp rfl
    obtain rfl := List.singleton_inj.1 hlast
    obtain rfl := h.append_ok (fun hm => hu (by simp [hm]))
      (fun front target hf => hl front target (hf.trans (downward_isPrefix (List.prefix_append ..)))) hlead
    have hname : downward [name] = [name] := downward_cons hn.ne_here []
    rw [downward_append, hname, ← List.append_assoc]
    exact hsets.grows hnone

/-- Making a directory and those above it shows directories where nothing was, on the way down from one that
is there, and no more. -/
theorem makeDirs_grows {rest : List String} (h : t.Leads dir place) (hu : ".." ∉ rest)
    (hl : t.Straight place (downward rest)) (hs : ¬ EndsInSlash (dir ++ rest)) :
    Grows t (t.makeDirsWithin r (dir ++ rest)).2 (place ++ downward rest) := by
  generalize hp : dir ++ rest = p at hs
  -- The path above is on the way down, or it leads to a directory that is there already.
  have habove : ∀ {p q rest}, parent? p = some q → dir ++ rest = p → ".." ∉ rest → t.Straight place (downward rest) →
      (∀ {rest}, ".." ∉ rest → t.Straight place (downward rest) → ¬ EndsInSlash q → dir ++ rest = q →
        Grows t (t.makeDirsWithin r q).2 (place ++ downward rest)) →
      Grows t (t.makeDirsWithin r q).2 (place ++ downward rest) := by
    intro p q rest hq hp hu hl ih
    obtain ⟨hqp, hsq⟩ := parent?_isPrefix hq
    rcases List.prefix_or_prefix_of_prefix (hp ▸ List.prefix_append dir rest) hqp with hd | hd
    · obtain ⟨more, rfl⟩ := hd
      rw [← hp, List.prefix_append_right_inj] at hqp
      have hmore := downward_isPrefix hqp
      exact (ih (fun hm => hu (hqp.subset hm)) (fun front target hf => hl front target (hf.trans hmore)) hsq rfl).mono
        ((List.prefix_append_right_inj place).2 hmore)
    · obtain ⟨above, hlead⟩ := h.of_isPrefix hd
      rw [makeDirs_of_leads hlead hsq]
      exact .refl _ _
  fun_induction makeDirsWithin t r p generalizing rest with
  | case1 => exact .refl _ _
  | case2 p q hq later he => exact ensureDir_grows h hu hl (hp ▸ hs) (hp ▸ he)
  | case3 p q hq _ e later hm ih =>
    have hgrows := habove hq hp hu hl fun hu hl hs hp => ih hu hl hp hs
    rwa [hm] at hgrows
  | case4 p q hq _ later hm last he ih =>
    have hgrows := habove hq hp hu hl fun hu hl hs hp => ih hu hl hp hs
    rw [hm] at hgrows
    exact hgrows.trans (ensureDir_grows (hgrows.leads h) hu (hgrows.straight hl) (hp ▸ hs) (hp ▸ he))
  | case5 p q hq _ later hm e _ ih =>
    have hgrows := habove hq hp hu hl fun hu hl hs hp => ih hu hl hp hs
    rwa [hm] at hgrows
  | case6 => exact .refl _ _

end FileTree

end BlockDag
