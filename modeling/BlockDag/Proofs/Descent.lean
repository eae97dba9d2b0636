/-
Joining blocks that may be anything. The loop of a joining stands here without a bound on its rounds:
it ends by itself whatever is looked up, since a block opens at its position only with the links that
the schema of the root's header gives it, so every way down ends at the last level. On the way it
meets positions of that schema's tree only, in preorder and each at most once, and if it comes through,
the data are as long as the header declares.
-/
import BlockDag.Proofs.Canonical

namespace BlockDag

/-- From the root, the whole tree is ahead. -/
theorem Schema.ahead_root (s : Schema) (root : BlockId) : s.ahead [(0, root)] = s.subtree 0 := by simp [ahead]

namespace Join

/-! ## The loop -/

/-- The loop of a joining from `stack` on, with the positions it takes off the stack. The block on top
is looked up and opened at its position, and what it links to goes on top of the rest; there all links
lie within the block, and the numbers of the positions they lead to are 64-bit numbers. The loop ends
with an empty stack, or with a block that is missing or does not open. -/
inductive Walk (s : Schema) (lookup : Lookup) :
    (asked : List BlockId) → (stack : List (Nat × BlockId)) → (visited : List Nat) → Run Bytes → Prop
  | done {asked} : Walk s lookup asked [] [] (.stop (.ok []))
  | missing {asked ix id stack} : lookup asked id = none →
      Walk s lookup asked ((ix, id) :: stack) [ix] (.afterLookup id none (.stop (.error (.missing id))))
  | refused {asked ix id stack raw e} : lookup asked id = some raw → openBlock s ix raw = .error e →
      Walk s lookup asked ((ix, id) :: stack) [ix] (.afterLookup id (some raw) (.stop (.error (.format e))))
  | opened {asked ix id stack raw block visited run} : lookup asked id = some raw →
      openBlock s ix raw = .ok block → linkCountSize + block.links.length * linkSize ≤ raw.length →
      (∀ p ∈ linked s ix block.links, p.1 ≤ Word.max) →
      Walk s lookup (id :: asked) (linked s ix block.links ++ stack) visited run →
      Walk s lookup asked ((ix, id) :: stack) (ix :: visited) (.afterLookup id (some raw)
        { run with checked := ix :: run.checked, result := run.result.map (block.data ++ ·) })

/-- Takes what a walk has joined apart. -/
def Run.unframe (declared : Nat) (walk : Run Bytes) : Run Resource where
  lookups := walk.lookups
  checked := walk.checked
  result := walk.result.bind fun stream => (Join.unframe declared stream).mapError .format

/-- The length that the root declares, if it is there and its header can be read. -/
def declared? (root : BlockId) (lookup : Lookup) : Option Nat :=
  (lookup [] root).bind fun raw => (declaredLength raw).toOption

variable {s : Schema} {lookup : Lookup} {asked : List BlockId} {stack : List (Nat × BlockId)}
  {visited : List Nat} {run : Run Bytes} {raw data : Bytes} {root : BlockId} {declared : Nat}

/-! ## What a walk does -/

namespace Walk

/-- A walk makes one lookup for each position. -/
theorem length_lookups (h : Walk s lookup asked stack visited run) : run.lookups.length = visited.length := by
  induction h with
  | done | missing | refused => rfl
  | opened _ _ _ _ _ ih => simpa [Run.afterLookup] using ih

/-- All positions but the one where a walk stops have blocks that pass their check. -/
theorem checked_isPrefix (h : Walk s lookup asked stack visited run) : run.checked <+: visited := by
  induction h with
  | done | missing | refused => exact List.nil_prefix
  | opened _ _ _ _ _ ih => exact List.cons_prefix_cons.2 ⟨rfl, ih⟩

/-- Positions come in preorder. -/
theorem visited_isPrefix (hs : s.Small) (h : Walk s lookup asked stack visited run)
    (hlt : ∀ p ∈ stack, p.1 < s.totalBlocks) : visited <+: s.ahead stack := by
  induction h with
  | done => exact List.nil_prefix
  | @missing _ ix id stack _ | @refused _ ix id stack _ _ _ _ =>
    have hix := hlt (ix, id) List.mem_cons_self
    rw [Schema.ahead, List.map_cons, List.flatMap_cons, hs.fits.subtree_eq hix]
    exact List.cons_prefix_cons.2 ⟨rfl, List.nil_prefix⟩
  | @opened _ ix id stack _ _ _ _ _ hopen _ _ _ ih =>
    rw [hs.ahead_cons hopen id stack]
    exact List.cons_prefix_cons.2
      ⟨rfl, ih (hs.lt_of_linked hopen fun p hp => hlt p (List.mem_cons_of_mem _ hp))⟩

/-- A walk that comes through has the data of all positions ahead. -/
theorem length_of_ok (hs : s.Small) (h : Walk s lookup asked stack visited run) (hok : run.result = .ok data) :
    data.length = ((s.ahead stack).map s.dataSize).sum := by
  induction h generalizing data with
  | done =>
    cases hok
    rfl
  | missing | refused => cases hok
  | @opened _ ix id stack _ block _ run _ hopen _ _ _ ih =>
    cases hrest : run.result with
    | error e => simp [Run.afterLookup, hrest, Except.map] at hok
    | ok rest =>
      simp only [Run.afterLookup, hrest, Except.map, Except.ok.injEq] at hok
      rw [← hok, hs.ahead_cons hopen id stack, List.length_append, data_of_openBlock hopen, ih hrest,
        List.map_cons, List.sum_cons]

end Walk

/-! ## The loop ends -/

/-- The numbers that the links of an opened block lead to are those of positions. -/
theorem le_max_of_linked (hs : s.Small) {ix : Nat} {block : Block} (hopen : openBlock s ix raw = .ok block) :
    ∀ p ∈ linked s ix block.links, p.1 ≤ Word.max := by
  intro p hp
  have hlt := hs.lt_of_linked hopen (List.forall_mem_nil _) p (List.mem_append_left _ hp)
  have hsmall := hs.totalBlocks_lt
  simp only [Word.max]
  omega

theorem links_within {ix : Nat} {block : Block} (hopen : openBlock s ix raw = .ok block) :
    linkCountSize + block.links.length * linkSize ≤ raw.length := by
  have := Block.length_of_decode (openBlock_eq_ok_iff.1 hopen).1
  omega

/-- With as many lookups as there are positions ahead, reading is a walk. -/
theorem read_walk (hs : s.Small) (lookup : Lookup) (fuel : Nat) (asked : List BlockId)
    (stack : List (Nat × BlockId)) (hlt : ∀ p ∈ stack, p.1 < s.totalBlocks) (hf : (s.ahead stack).length ≤ fuel) :
    ∃ visited, Walk s lookup asked stack visited (read s lookup fuel asked stack) := by
  induction fuel generalizing asked stack with
  | zero =>
    cases stack with
    | nil => exact ⟨[], .done⟩
    | cons p stack =>
      have := List.length_pos_of_mem (hs.mem_ahead hlt List.mem_cons_self)
      omega
  | succ fuel ih =>
    match stack with
    | [] => exact ⟨[], .done⟩
    | (ix, id) :: stack =>
      rw [read]
      cases hanswer : lookup asked id with
      | none => exact ⟨_, .missing hanswer⟩
      | some raw =>
        dsimp only
        cases hopen : openBlock s ix raw with
        | error e => exact ⟨_, .refused hanswer hopen⟩
        | ok block =>
          -- the position is left, and what is ahead of the rest is one position less
          rw [hs.ahead_cons hopen id stack, List.length_cons] at hf
          obtain ⟨visited, hrest⟩ := ih (id :: asked) (linked s ix block.links ++ stack)
            (hs.lt_of_linked hopen fun p hp => hlt p (List.mem_cons_of_mem _ hp)) (by omega)
          exact ⟨_, .opened hanswer hopen (links_within hopen) (le_max_of_linked hs hopen) hrest⟩

/-- A header declares lengths of small trees only. -/
theorem small_of_declaredLength (size : BlockSize) (h : declaredLength raw = .ok declared) :
    (Schema.ofDeclared size declared).Small ∧
      (Schema.ofDeclared size declared).length = declared + lengthHeaderSize := by
  cases hd : Block.decode raw with
  | error e =>
    unfold declaredLength at h
    simp [hd, bind, Except.bind] at h
  | ok block =>
    obtain ⟨header, -, henc, -⟩ := header_of_declaredLength h hd
    exact Schema.small_ofDeclared size (Header.length_lt henc).1

theorem declared?_eq_some_iff : declared? root lookup = some declared ↔
    ∃ raw, lookup [] root = some raw ∧ declaredLength raw = .ok declared := by
  unfold declared?
  rw [Option.bind_eq_some_iff]
  refine exists_congr fun raw => and_congr_right fun _ => ?_
  cases declaredLength raw <;> simp [Except.toOption]

/-- A joining whose header can be read is a walk from the root, taken apart. -/
theorem run_walk (size : BlockSize) (h : declared? root lookup = some declared) :
    ∃ visited walk, Walk (Schema.ofDeclared size declared) lookup [] [(0, root)] visited walk ∧
      Join.run size root lookup = walk.unframe declared := by
  obtain ⟨raw, hanswer, hdeclared⟩ := declared?_eq_some_iff.1 h
  obtain ⟨hs, -⟩ := small_of_declaredLength size hdeclared
  unfold Join.run
  simp only [hanswer]
  unfold runFrom
  simp only [hdeclared]
  generalize Schema.ofDeclared size declared = s at *
  cases hopen : openBlock s 0 raw with
  | error e => exact ⟨_, _, .refused hanswer hopen, rfl⟩
  | ok block =>
    have hall : (s.ahead [(0, root)]).length = s.totalBlocks := by
      rw [Schema.ahead_root, hs.fits.subtree_zero_perm.length_eq, List.length_range]
    rw [hs.ahead_cons hopen root [], List.length_cons] at hall
    obtain ⟨visited, hrest⟩ := read_walk hs lookup (s.totalBlocks - 1) [root] (linked s 0 block.links ++ [])
      (hs.lt_of_linked hopen (by simp)) (by omega)
    refine ⟨_, _, .opened hanswer hopen (links_within hopen) (le_max_of_linked hs hopen) hrest, ?_⟩
    rw [List.append_nil]
    cases hresult : (read s lookup (s.totalBlocks - 1) [root] (linked s 0 block.links)).result with
    | error e => simp [Run.unframe, Run.afterLookup, hresult, Except.map, Except.bind, bind]
    | ok data =>
      simp only [Run.unframe, Run.afterLookup, hresult, Except.map, Except.bind, bind]
      cases Join.unframe declared (block.data ++ data) <;> rfl

end Join

/-! ## What a joining can answer -/

namespace Block

/-- What can be wrong with the bytes of a block. -/
theorem error_of_decode {raw : Bytes} {e : FormatError} (h : decode raw = .error e) :
    e = .blockTooShort raw.length ∨ ∃ links, e = .linksOverflow links raw.length := by
  unfold decode at h
  split at h
  · cases h
    exact .inl rfl
  · dsimp only at h
    split at h
    · cases h
    · cases h
      exact .inr ⟨_, rfl⟩

end Block

namespace Header

/-- What can be wrong with a header. -/
theorem error_of_decode {data : Bytes} {e : FormatError} (h : decode data = .error e) :
    e = .headerTruncated data.length := by
  unfold decode at h
  split at h
  · cases h
    rfl
  · cases h

end Header

namespace Schema

/-- What a check can say. -/
theorem error_of_check {s : Schema} {ix size links : Nat} {e : FormatError} (h : s.check ix size links = .error e) :
    e = .unexpectedSize ix size (s.blockSize ix) ∨ e = .unexpectedLinkCount ix links (s.linkCount ix) := by
  unfold check at h
  split at h
  · cases h
    exact .inl rfl
  · split at h
    · cases h
      exact .inr rfl
    · cases h

end Schema

namespace Join

variable {s : Schema} {lookup : Lookup} {asked : List BlockId} {stack : List (Nat × BlockId)}
  {visited : List Nat} {run : Run Bytes} {raw : Bytes} {root : BlockId} {declared : Nat}

/-- A block that does not open says nothing of the length of the whole. -/
theorem ne_lengthMismatch_of_openBlock {ix : Nat} {e : FormatError} (h : openBlock s ix raw = .error e)
    (n m : Nat) : e ≠ .lengthMismatch n m := by
  rintro rfl
  unfold openBlock at h
  cases hd : Block.decode raw with
  | error e =>
    simp only [hd, bind, Except.bind] at h
    cases h
    simpa using Block.error_of_decode hd
  | ok block =>
    cases hc : s.check ix raw.length block.links.length with
    | error e =>
      simp only [hd, hc, bind, Except.bind] at h
      cases h
      simpa using Schema.error_of_check hc
    | ok _ => simp [hd, hc, bind, Except.bind, pure, Except.pure] at h

/-- Neither does a header that cannot be read. -/
theorem ne_lengthMismatch_of_declaredLength {e : FormatError} (h : declaredLength raw = .error e) (n m : Nat) :
    e ≠ .lengthMismatch n m := by
  rintro rfl
  unfold declaredLength at h
  cases hd : Block.decode raw with
  | error e =>
    simp only [hd, bind, Except.bind] at h
    cases h
    simpa using Block.error_of_decode hd
  | ok block =>
    cases hh : Header.decode block.data with
    | error e =>
      simp only [hd, hh, bind, Except.bind] at h
      cases h
      simpa using Header.error_of_decode hh
    | ok _ => simp [hd, hh, bind, Except.bind, pure, Except.pure] at h

/-- A walk that stops says which block is missing, or what is wrong with one. -/
theorem Walk.ne_lengthMismatch (h : Walk s lookup asked stack visited run) (n m : Nat) :
    run.result ≠ .error (.format (.lengthMismatch n m)) := by
  induction h with
  | done | missing => simp [Run.stop, Run.afterLookup]
  | refused _ hopen =>
    simp only [Run.stop, Run.afterLookup, ne_eq, Except.error.injEq, JoinError.format.injEq]
    exact ne_lengthMismatch_of_openBlock hopen n m
  | @opened _ _ _ _ _ _ _ run _ _ _ _ _ ih =>
    cases hrest : run.result with
    | error e => simpa [Run.afterLookup, hrest, Except.map] using ih
    | ok rest => simp [Run.afterLookup, Except.map]

/-- Data as long as declared come apart, but for the tag. -/
theorem unframe_ne_lengthMismatch {data : Bytes} (h : data.length = declared + lengthHeaderSize) (n m : Nat) :
    Join.unframe declared data ≠ .error (.lengthMismatch n m) := by
  have hbody : (data.drop lengthHeaderSize).length = declared := by
    rw [List.length_drop]
    omega
  unfold Join.unframe
  dsimp only
  rw [if_neg (not_not.2 hbody)]
  split
  · simp
  · split <;> simp

/-- Without a header, nothing but the root is looked up. -/
theorem run_headless (size : BlockSize) (h : declared? root lookup = none) :
    (Join.run size root lookup).lookups.length = 1 ∧ (Join.run size root lookup).checked = [] ∧
      ∃ e, (Join.run size root lookup).result = .error e ∧ ∀ n m, e ≠ .format (.lengthMismatch n m) := by
  unfold Join.run
  unfold declared? at h
  cases hanswer : lookup [] root with
  | none => exact ⟨rfl, rfl, _, rfl, by simp⟩
  | some raw =>
    dsimp only
    unfold runFrom
    cases hd : declaredLength raw with
    | error e =>
      refine ⟨rfl, rfl, _, rfl, ?_⟩
      intro n m he
      cases he
      exact ne_lengthMismatch_of_declaredLength hd n m rfl
    | ok declared => simp [hanswer, hd, Except.toOption] at h

/-- A walk from the root that comes through has all the data that are declared. -/
theorem Walk.length_of_root {s : Schema} {walk : Run Bytes} {data : Bytes} (hs : s.Small)
    (h : Walk s lookup [] [(0, root)] visited walk) (hok : walk.result = .ok data) : data.length = s.length := by
  rw [h.length_of_ok hs hok, Schema.ahead_root, ← hs.preorder_eq, hs.sum_dataSize_preorder]

/-- Joining is safe, whatever is looked up. The loop ends by itself, with all its slices and sums in
range, and it takes positions of the declared tree only off its stack, in preorder and each at most
once; where it comes through, the data it cuts the header off are as long as declared. There are not
more lookups than the declared tree has blocks, and only the root's where its header cannot be read. The
answer is never that the data have another length than declared. -/
theorem join_guarded (size : BlockSize) (root : BlockId) (lookup : Lookup) :
    (∀ n m, (Join.run size root lookup).result ≠ .error (.format (.lengthMismatch n m))) ∧
    (declared? root lookup = none → (Join.run size root lookup).lookups.length = 1 ∧
      (Join.run size root lookup).checked = [] ∧ ∃ e, (Join.run size root lookup).result = .error e) ∧
    ∀ declared, declared? root lookup = some declared → ∃ visited walk,
      Walk (Schema.ofDeclared size declared) lookup [] [(0, root)] visited walk ∧
      Join.run size root lookup = walk.unframe declared ∧
      visited <+: (Schema.ofDeclared size declared).preorder ∧ visited.Nodup ∧ walk.checked <+: visited ∧
      walk.lookups.length ≤ (Schema.ofDeclared size declared).totalBlocks ∧
      ∀ data, walk.result = .ok data → data.length = declared + lengthHeaderSize := by
  have hheader : ∀ declared, declared? root lookup = some declared →
      (Schema.ofDeclared size declared).Small ∧
        (Schema.ofDeclared size declared).length = declared + lengthHeaderSize := by
    intro declared h
    obtain ⟨raw, -, hdeclared⟩ := declared?_eq_some_iff.1 h
    exact small_of_declaredLength size hdeclared
  refine ⟨?_, ?_, ?_⟩
  · intro n m herr
    cases h : declared? root lookup with
    | none =>
      obtain ⟨-, -, e, he, hne⟩ := run_headless size h
      rw [he] at herr
      exact hne n m (Except.error.inj herr)
    | some declared =>
      obtain ⟨hs, hlength⟩ := hheader declared h
      obtain ⟨visited, walk, hwalk, hrun⟩ := run_walk size h
      rw [hrun, Run.unframe] at herr
      cases hresult : walk.result with
      | error e =>
        rw [hresult] at herr
        cases herr
        exact hwalk.ne_lengthMismatch n m hresult
      | ok data =>
        simp only [hresult, Except.bind] at herr
        have hdata := (hwalk.length_of_root hs hresult).trans hlength
        cases hbody : Join.unframe declared data with
        | error e =>
          rw [hbody] at herr
          cases herr
          exact unframe_ne_lengthMismatch hdata n m hbody
        | ok _ =>
          rw [hbody] at herr
          cases herr
  · intro h
    obtain ⟨hlookups, hchecked, e, he, -⟩ := run_headless size h
    exact ⟨hlookups, hchecked, e, he⟩
  · intro declared h
    obtain ⟨hs, hlength⟩ := hheader declared h
    obtain ⟨visited, walk, hwalk, hrun⟩ := run_walk size h
    have hfront : visited <+: (Schema.ofDeclared size declared).preorder := by
      rw [hs.preorder_eq, ← Schema.ahead_root]
      exact hwalk.visited_isPrefix hs (by simpa using Schema.totalBlocks_pos _)
    refine ⟨visited, walk, hwalk, hrun, hfront, ?_, hwalk.checked_isPrefix, ?_, ?_⟩
    · exact (hs.preorder_perm.nodup_iff.2 List.nodup_range).sublist hfront.sublist
    · rw [hwalk.length_lookups]
      refine hfront.length_le.trans_eq ?_
      rw [hs.preorder_perm.length_eq, List.length_range]
    · intro data hok
      exact (hwalk.length_of_root hs hok).trans hlength

end Join

end BlockDag
