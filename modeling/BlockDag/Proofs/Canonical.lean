/-
Joining accepts nothing but what splitting produces. Blocks that joining accepts are a tree laid out
by the schema of its header, looked up in preorder, and their data is the framed payload; so
splitting the payload gives these blocks again, and a payload has one root and one tree.
-/
import BlockDag.Proofs.Blob

namespace BlockDag

namespace Schema

variable {s : Schema}

theorem Small.self_mem_subtree (hs : s.Small) {ix : Nat} (h : ix < s.totalBlocks) : ix ∈ s.subtree ix := by
  rw [hs.fits.subtree_eq h]
  exact List.mem_cons_self

/-- A subtree has the children of all its positions. -/
theorem Small.mem_subtree_of_child (hs : s.Small) {ix : Nat} (h : ix < s.totalBlocks) {j c : Nat}
    (hj : j ∈ s.subtree ix) (hc : c ∈ s.children j) : c ∈ s.subtree ix := by
  induction hn : s.totalBlocks - ix using Nat.strongRecOn generalizing ix with
  | ind n ih =>
    rw [hs.fits.subtree_eq h] at hj ⊢
    refine List.mem_cons_of_mem _ (List.mem_flatMap.2 ?_)
    rcases List.mem_cons.1 hj with rfl | hj
    · exact ⟨c, hc, hs.self_mem_subtree (hs.fits.lt_of_mem_children h hc).2⟩
    · obtain ⟨d, hd, hj⟩ := List.mem_flatMap.1 hj
      have hlt := hs.fits.lt_of_mem_children h hd
      exact ⟨d, hd, ih _ (by omega) hlt.2 hj rfl⟩

/-! ## What a reading finds -/

/-- The positions that a stack leads to, in the order in which they are read. -/
def ahead (s : Schema) (stack : List (Nat × BlockId)) : List Nat := (stack.map Prod.fst).flatMap s.subtree

/-- What a reading of `stack` has found: the stacked names, and below them blocks that `Kept` holds for,
open at their positions and linked to their children, each looked up once, with this data. -/
structure Found (s : Schema) (Kept : NamedBlock → Prop) (stack : List (Nat × BlockId)) (tree : Nat → NamedBlock)
    (lookups : List Join.Asked) (data : Bytes) : Prop where
  name : ∀ p ∈ stack, (tree p.1).1 = p.2
  kept : ∀ ix ∈ s.ahead stack, Kept (tree ix)
  linked : ∀ ix ∈ s.ahead stack, ∃ block, Join.openBlock s ix (tree ix).2 = .ok block ∧
    block.links = (s.children ix).map fun c => (tree c).1
  lookups : lookups = (s.ahead stack).map fun ix => ⟨(tree ix).1, some (tree ix).2⟩
  data : data = (s.ahead stack).flatMap fun ix => Block.dataOf (tree ix).2

variable {Kept : NamedBlock → Prop} {tree : Nat → NamedBlock} {stack : List (Nat × BlockId)} {ix : Nat}
  {id : BlockId} {raw data : Bytes} {block : Block} {lookups : List Join.Asked}

theorem Small.mem_ahead (hs : s.Small) (hlt : ∀ p ∈ stack, p.1 < s.totalBlocks) {p : Nat × BlockId}
    (h : p ∈ stack) : p.1 ∈ s.ahead stack :=
  List.mem_flatMap.2 ⟨p.1, List.mem_map_of_mem h, hs.self_mem_subtree (hlt p h)⟩

theorem Small.mem_ahead_of_child (hs : s.Small) (hlt : ∀ p ∈ stack, p.1 < s.totalBlocks) {j c : Nat}
    (hj : j ∈ s.ahead stack) (hc : c ∈ s.children j) : c ∈ s.ahead stack := by
  obtain ⟨k, hk, hj⟩ := List.mem_flatMap.1 hj
  obtain ⟨p, hp, rfl⟩ := List.mem_map.1 hk
  exact List.mem_flatMap.2 ⟨p.1, hk, hs.mem_subtree_of_child (hlt p hp) hj hc⟩

/-- A block comes first, then what its links and the rest of the stack lead to. -/
theorem Small.ahead_cons (hs : s.Small) (hopen : Join.openBlock s ix raw = .ok block) (id : BlockId)
    (stack : List (Nat × BlockId)) :
    s.ahead ((ix, id) :: stack) = ix :: s.ahead (Join.linked s ix block.links ++ stack) := by
  obtain ⟨hlinked, hlength⟩ := Join.linked_of_openBlock hopen
  unfold ahead
  rw [List.map_cons, List.flatMap_cons, hs.fits.subtree_eq (Join.lt_of_openBlock hopen), List.map_append, hlinked,
    List.map_fst_zip (Nat.le_of_eq hlength), List.flatMap_append, List.cons_append]

theorem Small.lt_of_linked (hs : s.Small) (hopen : Join.openBlock s ix raw = .ok block)
    (hlt : ∀ p ∈ stack, p.1 < s.totalBlocks) :
    ∀ p ∈ Join.linked s ix block.links ++ stack, p.1 < s.totalBlocks := by
  intro p hp
  rcases List.mem_append.1 hp with hp | hp
  · rw [(Join.linked_of_openBlock hopen).1] at hp
    exact (hs.fits.lt_of_mem_children (Join.lt_of_openBlock hopen) (List.of_mem_zip hp).1).2
  · exact hlt p hp

theorem found_nil (s : Schema) (Kept : NamedBlock → Prop) (tree : Nat → NamedBlock) :
    s.Found Kept [] tree [] [] := by
  constructor
  · intro p hp
    cases hp
  · intro ix hix
    cases hix
  · intro ix hix
    cases hix
  · rfl
  · rfl

/-- A block goes on top of what its links lead to. Its position is its own, so nothing else moves. -/
theorem Found.cons (hs : s.Small) (hopen : Join.openBlock s ix raw = .ok block) (hkept : Kept (id, raw))
    (hlt : ∀ p ∈ stack, p.1 < s.totalBlocks) (hfresh : ix ∉ s.ahead (Join.linked s ix block.links ++ stack))
    (h : s.Found Kept (Join.linked s ix block.links ++ stack) tree lookups data) :
    s.Found Kept ((ix, id) :: stack) (Function.update tree ix (id, raw)) (⟨id, some raw⟩ :: lookups)
      (block.data ++ data) := by
  have hlt' := hs.lt_of_linked hopen hlt
  have hahead := hs.ahead_cons hopen id stack
  have hne : ∀ j ∈ s.ahead (Join.linked s ix block.links ++ stack),
      Function.update tree ix (id, raw) j = tree j := by
    rintro j hj
    apply Function.update_of_ne
    rintro rfl
    exact hfresh hj
  have hname : ∀ p ∈ Join.linked s ix block.links ++ stack, (Function.update tree ix (id, raw) p.1).1 = p.2 := by
    intro p hp
    rw [hne p.1 (hs.mem_ahead hlt' hp)]
    exact h.name p hp
  constructor
  case name =>
    intro p hp
    rcases List.mem_cons.1 hp with rfl | hp
    · rw [Function.update_self]
    · exact hname p (List.mem_append_right _ hp)
  case kept =>
    intro j hj
    rw [hahead] at hj
    rcases List.mem_cons.1 hj with rfl | hj
    · rw [Function.update_self]
      exact hkept
    · rw [hne j hj]
      exact h.kept j hj
  case linked =>
    intro j hj
    rw [hahead] at hj
    rcases List.mem_cons.1 hj with rfl | hj
    · obtain ⟨hlinked, hlength⟩ := Join.linked_of_openBlock hopen
      rw [Function.update_self]
      refine ⟨block, hopen, ?_⟩
      apply List.ext_getElem (by rw [List.length_map, hlength])
      intro i h₁ h₂
      have hchild : i < (s.children j).length := by rwa [List.length_map] at h₂
      have hmem : ((s.children j)[i], block.links[i]) ∈ Join.linked s j block.links ++ stack := by
        rw [hlinked]
        exact List.mem_append_left _ (List.mem_iff_getElem.2 ⟨i, by simp [hchild, h₁], by simp⟩)
      rw [List.getElem_map, hname _ hmem]
    · obtain ⟨b, hb, hlinks⟩ := h.linked j hj
      rw [hne j hj]
      refine ⟨b, hb, hlinks.trans ?_⟩
      apply List.map_congr_left
      intro c hc
      rw [hne c (hs.mem_ahead_of_child hlt' hj hc)]
  case lookups =>
    rw [hahead, List.map_cons, Function.update_self, h.lookups]
    congr 1
    apply List.map_congr_left
    intro j hj
    rw [hne j hj]
  case data =>
    rw [hahead, List.flatMap_cons, Function.update_self, Block.dataOf_eq (Join.openBlock_eq_ok_iff.1 hopen).1, h.data]
    congr 1
    apply List.flatMap_congr
    intro j hj
    rw [hne j hj]

/-- A reading to the end has found all its stack leads to. -/
theorem Small.exists_found (hs : s.Small) {lookup : Join.Lookup}
    (hkept : ∀ asked id raw, lookup asked id = some raw → Kept (id, raw)) (fuel : Nat) (asked : List BlockId)
    (stack : List (Nat × BlockId)) (hlt : ∀ p ∈ stack, p.1 < s.totalBlocks) (hd : (s.ahead stack).Nodup)
    (hf : (s.ahead stack).length ≤ fuel) (h : (Join.read s lookup fuel asked stack).result = .ok data) :
    ∃ tree, s.Found Kept stack tree (Join.read s lookup fuel asked stack).lookups data := by
  induction fuel generalizing asked stack data with
  | zero =>
    cases stack with
    | nil =>
      cases h
      exact ⟨_, found_nil s Kept fun _ => (BlockId.of [], [])⟩
    | cons p stack =>
      have := List.length_pos_of_mem (hs.mem_ahead hlt List.mem_cons_self)
      omega
  | succ fuel ih =>
    cases stack with
    | nil =>
      cases h
      exact ⟨_, found_nil s Kept fun _ => (BlockId.of [], [])⟩
    | cons p stack =>
      obtain ⟨ix, id⟩ := p
      rw [Join.read] at h ⊢
      simp only [Join.Run.afterLookup] at h ⊢
      cases hanswer : lookup asked id with
      | none => simp [hanswer, Join.Run.stop] at h
      | some raw =>
        simp only [hanswer] at h ⊢
        cases hopen : Join.openBlock s ix raw with
        | error e => simp [hopen, Join.Run.stop] at h
        | ok block =>
          simp only [hopen] at h ⊢
          cases hrest : (Join.read s lookup fuel (id :: asked) (Join.linked s ix block.links ++ stack)).result with
          | error e => simp [hrest, Except.map] at h
          | ok rest =>
            rw [hrest] at h
            cases h
            have hrestlt := fun p hp => hlt p (List.mem_cons_of_mem _ hp)
            rw [hs.ahead_cons hopen id stack] at hd hf
            obtain ⟨hfresh, hd⟩ := List.nodup_cons.1 hd
            obtain ⟨tree, htree⟩ :=
              ih _ _ (hs.lt_of_linked hopen hrestlt) hd (by simpa using hf) hrest
            exact ⟨_, htree.cons hs hopen (hkept _ _ _ hanswer) hrestlt hfresh⟩

/-- A root with a reading of all it links to is a whole tree, looked up in preorder. -/
theorem Small.exists_laid (hs : s.Small) {lookup : Join.Lookup}
    (hkept : ∀ asked id raw, lookup asked id = some raw → Kept (id, raw)) (hroot : Kept (id, raw))
    (hopen : Join.openBlock s 0 raw = .ok block)
    (h : (Join.read s lookup (s.totalBlocks - 1) [id] (Join.linked s 0 block.links)).result = .ok data) :
    ∃ tree : Nat → NamedBlock, (tree 0).1 = id ∧ s.Laid tree ∧ (∀ ix < s.totalBlocks, Kept (tree ix)) ∧
      s.stream tree = block.data ++ data ∧
      ⟨id, some raw⟩ :: (Join.read s lookup (s.totalBlocks - 1) [id] (Join.linked s 0 block.links)).lookups =
        s.preorder.map fun ix => ⟨(tree ix).1, some (tree ix).2⟩ := by
  -- the root was looked up on its own, so it goes on top of what was read below it
  rw [← List.append_nil (Join.linked s 0 block.links)] at h ⊢
  have hnone : ∀ p ∈ ([] : List (Nat × BlockId)), p.1 < s.totalBlocks := by
    intro p hp
    cases hp
  have hall : s.ahead [(0, id)] = s.preorder := by
    rw [hs.preorder_eq]
    simp [ahead]
  have hperm := hs.preorder_perm
  rw [← hall, hs.ahead_cons hopen id []] at hperm
  obtain ⟨hfresh, hd⟩ := List.nodup_cons.1 (hperm.nodup_iff.2 List.nodup_range)
  have hlength := hperm.length_eq
  rw [List.length_cons, List.length_range] at hlength
  obtain ⟨tree, htree⟩ := hs.exists_found hkept _ _ _ (hs.lt_of_linked hopen hnone) hd (by omega) h
  have hfound := htree.cons hs hopen hroot hnone hfresh
  refine ⟨_, hfound.name _ List.mem_cons_self, ?_, ?_, ?_, ?_⟩
  · intro ix hix
    exact hfound.linked ix (hall ▸ hs.mem_preorder.2 hix)
  · intro ix hix
    exact hfound.kept ix (hall ▸ hs.mem_preorder.2 hix)
  · rw [hfound.data, hall]
    rfl
  · rw [hfound.lookups, hall]

end Schema

namespace Join

/-- The length that a root declares is in the header that its data starts with. -/
theorem header_of_declaredLength {raw : Bytes} {declared : Nat} {block : Block}
    (h : declaredLength raw = .ok declared) (hd : Block.decode raw = .ok block) :
    ∃ header rest, Header.encode declared = .ok header ∧ block.data = header ++ rest := by
  unfold declaredLength at h
  simp only [hd, bind, Except.bind] at h
  cases hh : Header.decode block.data with
  | error e => simp [hh] at h
  | ok p =>
    obtain ⟨length, rest⟩ := p
    simp only [hh, pure, Except.pure, Except.ok.injEq] at h
    subst h
    obtain ⟨header, henc, -, hdata⟩ := Header.encode_of_decode hh
    exact ⟨header, rest, henc, hdata⟩

end Join

namespace EncodedBlob

variable {size : BlockSize} {tag : DataTag} {payload : Bytes} {root : BlockId} {lookup : Join.Lookup}

/-- What comes apart into a payload and its tag, behind the header that declares them, is their frame. -/
theorem frame_of_unframe {declared : Nat} {header stream : Bytes} (hh : Header.encode declared = .ok header)
    (h : Join.unframe declared (header ++ stream) = .ok ⟨tag, payload⟩) :
    declared = payload.length + 1 ∧ frame tag payload = .ok (header ++ stream) := by
  unfold Join.unframe at h
  rw [List.drop_left' (Header.length_lt hh).2] at h
  dsimp only at h
  split at h
  · cases h
  · next hlength =>
    cases stream with
    | nil => cases h
    | cons byte rest =>
      cases htag : DataTag.ofByte? byte with
      | none => simp [htag] at h
      | some tag' =>
        simp only [htag] at h
        cases h
        obtain rfl : payload.length + 1 = declared := by
          rw [not_not] at hlength
          simpa using hlength
        refine ⟨rfl, frame_eq_ok_iff.2 ⟨header, hh, ?_⟩⟩
        rw [DataTag.byte_of_ofByte? htag]

/-- A joining that gives a payload has looked up, in preorder, a tree below the root whose stream is
the framed payload. -/
theorem exists_tree_of_run (Kept : NamedBlock → Prop)
    (hkept : ∀ asked id raw, lookup asked id = some raw → Kept (id, raw))
    (h : (Join.run size root lookup).result = .ok ⟨tag, payload⟩) :
    ∃ tree : Nat → NamedBlock, (tree 0).1 = root ∧
      (Schema.ofDeclared size (payload.length + 1)).Laid tree ∧
      (∀ ix < (Schema.ofDeclared size (payload.length + 1)).totalBlocks, Kept (tree ix)) ∧
      frame tag payload = .ok ((Schema.ofDeclared size (payload.length + 1)).stream tree) ∧
      (Join.run size root lookup).lookups =
        (Schema.ofDeclared size (payload.length + 1)).preorder.map fun ix => ⟨(tree ix).1, some (tree ix).2⟩ := by
  unfold Join.run at h ⊢
  simp only [Join.Run.afterLookup] at h ⊢
  cases hanswer : lookup [] root with
  | none => simp [hanswer, Join.Run.stop] at h
  | some raw =>
    simp only [hanswer] at h ⊢
    unfold Join.runFrom at h ⊢
    cases hdeclared : Join.declaredLength raw with
    | error e => simp [hdeclared, Join.Run.stop] at h
    | ok declared =>
      simp only [hdeclared] at h ⊢
      cases hopen : Join.openBlock (Schema.ofDeclared size declared) 0 raw with
      | error e => simp [hopen, Join.Run.stop] at h
      | ok block =>
        simp only [hopen] at h ⊢
        cases hbelow : (Join.read (Schema.ofDeclared size declared) lookup
            ((Schema.ofDeclared size declared).totalBlocks - 1) [root]
            (Join.linked (Schema.ofDeclared size declared) 0 block.links)).result with
        | error e => simp [hbelow, bind, Except.bind] at h
        | ok data =>
          simp only [hbelow, bind, Except.bind] at h
          cases hframe : Join.unframe declared (block.data ++ data) with
          | error e => simp [hframe] at h
          | ok resource =>
            simp only [hframe, Except.ok.injEq] at h
            subst h
            obtain ⟨header, rest, henc, hdata⟩ :=
              Join.header_of_declaredLength hdeclared (Join.openBlock_eq_ok_iff.1 hopen).1
            rw [hdata, List.append_assoc] at hframe
            obtain ⟨rfl, hstream⟩ := frame_of_unframe henc hframe
            rw [← List.append_assoc, ← hdata] at hstream
            obtain ⟨hs, -⟩ := Schema.small_ofDeclared size (Header.length_lt henc).1
            obtain ⟨tree, hname, hlaid, hall, hdata, hlookups⟩ :=
              hs.exists_laid hkept (hkept _ _ _ hanswer) hopen hbelow
            rw [← hdata] at hstream
            exact ⟨tree, hname, hlaid, hall, hstream, hlookups⟩

/-- The encoding is canonical. What joining gives is split into the blocks that were looked up, in
preorder, below the root that was asked for; so it has no other root and no other tree. -/
theorem split_join (hnamed : ∀ asked id raw, lookup asked id = some raw → id.Names raw)
    (h : (Join.run size root lookup).result = .ok ⟨tag, payload⟩) :
    (∃ blob, split size tag payload = .ok blob ∧ blob.root = root ∧
      blob.blocks.length = (Schema.ofDeclared size (payload.length + 1)).totalBlocks ∧
      (Join.run size root lookup).lookups.map (fun a => a.answer.map fun raw => (a.id, raw)) =
        (Schema.ofDeclared size (payload.length + 1)).preorder.map fun ix => blob.blocks[ix]?) ∧
    ∀ (root' : BlockId) (lookup' : Join.Lookup), (∀ asked id raw, lookup' asked id = some raw → id.Names raw) →
      (Join.run size root' lookup').result = .ok ⟨tag, payload⟩ →
      root' = root ∧ (Join.run size root' lookup').lookups = (Join.run size root lookup).lookups := by
  obtain ⟨tree, rfl, hlaid, hkept, hframe, hlookups⟩ := exists_tree_of_run (fun b => b.1.Names b.2) hnamed h
  have hsplit := split_of_laid hlaid hkept hframe
  constructor
  · refine ⟨_, hsplit, rfl, ?_, ?_⟩
    · rw [List.length_map, List.length_range]
    · obtain ⟨hs, -⟩ := small_of_frame size hframe
      rw [hlookups, List.map_map]
      apply List.map_congr_left
      intro ix hix
      simp [hs.mem_preorder.1 hix]
  · intro root' lookup' hnamed' h'
    obtain ⟨tree', rfl, hlaid', hkept', hframe', hlookups'⟩ :=
      exists_tree_of_run (fun b => b.1.Names b.2) hnamed' h'
    -- both trees are what the payload is split into
    have hsame := hsplit.symm.trans (split_of_laid hlaid' hkept' hframe')
    simp only [Except.ok.injEq, EncodedBlob.mk.injEq, List.map_inj_left, List.mem_range] at hsame
    obtain ⟨hroot, hblocks⟩ := hsame
    refine ⟨hroot.symm, ?_⟩
    obtain ⟨hs, -⟩ := small_of_frame size hframe
    rw [hlookups, hlookups']
    apply List.map_congr_left
    intro ix hix
    rw [hblocks ix (hs.mem_preorder.1 hix)]

/-- The blocks of two leaves and their root, looked up among what the payload was split into. -/
theorem split_join_leaves : ∃ blob : EncodedBlob,
    (∀ id raw, Table.get? id blob.blocks = some raw → id.Names raw) ∧
    (Join.run ⟨71, by decide, by decide, by decide⟩ blob.root fun _ id => Table.get? id blob.blocks).result =
      .ok ⟨.blockBody, List.replicate 69 1 ++ List.replicate 69 2⟩ ∧
    ∃ blob', split ⟨71, by decide, by decide, by decide⟩ .blockBody
      (List.replicate 69 1 ++ List.replicate 69 2) = .ok blob' ∧ blob'.root = blob.root := by
  have hchecked : (split ⟨71, by decide, by decide, by decide⟩ .blockBody
      (List.replicate 69 1 ++ List.replicate 69 2)).toOption.any fun blob =>
        decide (∀ b ∈ blob.blocks, b.1.Names b.2) &&
        (Join.run ⟨71, by decide, by decide, by decide⟩ blob.root
          fun _ id => Table.get? id blob.blocks).result.toOption.any
          (· = ⟨.blockBody, List.replicate 69 1 ++ List.replicate 69 2⟩) := by decide +kernel
  rcases hsplit : split ⟨71, by decide, by decide, by decide⟩ .blockBody
      (List.replicate 69 1 ++ List.replicate 69 2) with e | blob
  · rw [hsplit] at hchecked
    cases hchecked
  · rw [hsplit] at hchecked
    obtain ⟨hblocks, hjoined⟩ := Bool.and_eq_true_iff.1 hchecked
    have hnamed : ∀ id raw, Table.get? id blob.blocks = some raw → id.Names raw :=
      fun id raw h => of_decide_eq_true hblocks _ (Table.mem_of_get? h)
    rcases hrun : (Join.run ⟨71, by decide, by decide, by decide⟩ blob.root
        fun _ id => Table.get? id blob.blocks).result with e | resource
    · rw [hrun] at hjoined
      cases hjoined
    · rw [hrun] at hjoined
      obtain rfl := of_decide_eq_true hjoined
      obtain ⟨blob', hblob', hroot, -⟩ := (split_join (fun _ => hnamed) hrun).1
      exact ⟨blob, hnamed, hrun, blob', hsplit ▸ hblob', hroot⟩

end EncodedBlob

end BlockDag
