/-
Making a directory together with those above it. From the directory to be made the way leads up to the
first one that is there or can be made, and from there down again.
-/
import BlockDag.FileTree.Basic

namespace BlockDag

/-- Names without those at the end that lead nowhere else: `.` and the empty one. -/
def trimNames (names : List String) : List String :=
  (names.reverse.dropWhile fun name => name = "." ∨ name = "").reverse

theorem length_trimNames_le (names : List String) : (trimNames names).length ≤ names.length := by
  simpa [trimNames] using (List.dropWhile_suffix (l := names.reverse) _).length_le

/-- The path above `p`: its last name is taken off, and so is what leads nowhere else beside it. A first
name stays what it is. There is nothing above the root and above the path without names. -/
def parent? (p : Path) : Option Path :=
  match p with
  | [] => none
  | first :: rest =>
    match trimNames rest with
    | [] => if first = "" then none else some []
    | name :: names => some (first :: trimNames (name :: names).dropLast)

/-- The path above is shorter. -/
theorem length_lt_of_parent? {p q : Path} (h : parent? p = some q) : q.length < p.length := by
  unfold parent? at h
  split at h
  · simp at h
  · next first rest =>
    have hr := length_trimNames_le rest
    split at h
    · split at h
      · simp at h
      · obtain rfl := Option.some.inj h
        simp
    · next name names hn =>
      obtain rfl := Option.some.inj h
      have := length_trimNames_le (name :: names).dropLast
      simp [hn] at hr this ⊢
      omega

/-- What a system refuses of the calls that change files, for reasons that the tree does not show: it may lack
room, or the program rights. Nothing is changed then, but a write may have begun. -/
structure Refusals where
  makeDir : FileTree → Path → Option FileError
  create : Option FileError
  /-- With the number of bytes that were written before. -/
  write : Option (Nat × FileError)
  sync : Option FileError
  rename : Option FileError

namespace Refusals

/-- Every call goes through that the tree allows. -/
def none : Refusals := ⟨fun _ _ => .none, .none, .none, .none, .none⟩

/-- How much of `content` is written. -/
def written (r : Refusals) (content : Bytes) : Bytes :=
  match r.write with
  | some (n, _) => content.take n
  | .none => content

end Refusals

/-- What becomes of a call, unless it is refused. -/
def unlessRefused {α : Type} (refusal : Option FileError) (outcome : Except FileError α) : Except FileError α :=
  match refusal with
  | some e => .error e
  | none => outcome

theorem unlessRefused_eq_ok {α : Type} {refusal : Option FileError} {outcome : Except FileError α} {a : α} :
    unlessRefused refusal outcome = .ok a ↔ refusal = none ∧ outcome = .ok a := by
  cases refusal <;> simp [unlessRefused]

namespace FileTree

/-- Makes the directory `p` in the directory above it, which has to be there. -/
def makeDir (t : FileTree) (p : Path) : Except FileError FileTree :=
  let names := dropSlash p
  match names.getLast? with
  | none => .error .notFound
  | some name => do
    let place ← t.enter p names.dropLast
    if name = "." ∨ name = ".." then .error .alreadyExists
    else if NameTooLong name then .error .nameTooLong
    else
      match t.node? (place ++ [name]) with
      | some _ => .error .alreadyExists
      | none => return { t with entries := t.entries.put (.directory []) (place ++ [name]) }

/-- Whether `p` leads to a directory. -/
def IsDirectory (t : FileTree) (p : Path) : Prop := ∃ entries, t.look p = .ok (.directory entries)

instance (t : FileTree) (p : Path) : Decidable (t.IsDirectory p) :=
  match h : t.look p with
  | .ok (.directory entries) => .isTrue ⟨entries, h⟩
  | .ok (.file _) => .isFalse fun ⟨_, h'⟩ => by simp [h] at h'
  | .error _ => .isFalse fun ⟨_, h'⟩ => by simp [h] at h'

/-- Makes the directory `p`, which may be there already. -/
def ensureDir (t : FileTree) (r : Refusals) (p : Path) : Except FileError FileTree :=
  match unlessRefused (r.makeDir t p) (t.makeDir p) with
  | .ok t => .ok t
  | .error e => if t.IsDirectory p then .ok t else .error e

/-- Makes the directory `p` and all above it, as far as the system lets it. Directories that were made stay
where a later one fails. -/
def makeDirsWithin (t : FileTree) (r : Refusals) (p : Path) : Except FileError Unit × FileTree :=
  match _h : parent? p with
  | none => (.ok (), t)
  | some q =>
    match t.ensureDir r p with
    | .ok t => (.ok (), t)
    | .error .notFound =>
      match t.makeDirsWithin r q with
      | (.error e, t) => (.error e, t)
      | (.ok (), t) =>
        match t.ensureDir r p with
        | .ok t => (.ok (), t)
        | .error e => (.error e, t)
    | .error e => (.error e, t)
termination_by p.length
decreasing_by exact length_lt_of_parent? (by assumption)

/-- Makes the directory `p` and all above it. -/
def makeDirs (t : FileTree) (p : Path) : Except FileError Unit × FileTree := t.makeDirsWithin .none p

end FileTree

end BlockDag
