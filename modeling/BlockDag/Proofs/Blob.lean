/-
Blobs as trees laid out by position. A tree is laid out by a schema if the block at every position
opens there and links to the blocks at its children; its stream is the data in preorder. Splitting
a payload gives the one named tree whose stream is the framed payload, and joining such a tree
gives the payload back.
-/
import BlockDag.Proofs.Codec
import BlockDag.Proofs.Subtree
import BlockDag.Proofs.Table

namespace BlockDag

/-- The data of a block, from its bytes. -/
def Block.dataOf (raw : Bytes) : Bytes :=
  match Block.decode raw with
  | .ok block => block.data
  | .error _ => []

theorem Block.dataOf_eq {raw : Bytes} {block : Block} (h : Block.decode raw = .ok block) :
    Block.dataOf raw = block.data := by
  unfold Block.dataOf
  rw [h]

namespace Schema

/-- Every position holds a block that opens there and links to the blocks at its children. -/
def Laid (s : Schema) (tree : Nat → NamedBlock) : Prop :=
  ∀ ix < s.totalBlocks, ∃ block, Join.openBlock s ix (tree ix).2 = .ok block ∧
    block.links = (s.children ix).map fun c => (tree c).1

/-- Every block has its own name. -/
def Named (s : Schema) (tree : Nat → NamedBlock) : Prop :=
  ∀ ix < s.totalBlocks, (tree ix).1.Names (tree ix).2

/-- The data of all blocks, in preorder. -/
def stream (s : Schema) (tree : Nat → NamedBlock) : Bytes :=
  s.preorder.flatMap fun ix => Block.dataOf (tree ix).2

variable {s : Schema} {tree : Nat → NamedBlock}

theorem Laid.length_dataOf (hl : s.Laid tree) {ix : Nat} (h : ix < s.totalBlocks) :
    (Block.dataOf (tree ix).2).length = s.dataSize ix := by
  obtain ⟨block, hopen, -⟩ := hl ix h
  rw [Block.dataOf_eq (Join.openBlock_eq_ok_iff.1 hopen).1, Join.data_of_openBlock hopen]

theorem Laid.length_stream (hs : s.Small) (hl : s.Laid tree) : (s.stream tree).length = s.length := by
  rw [stream, List.length_flatMap, ← hs.sum_dataSize_preorder]
  congr 1
  apply List.map_congr_left
  intro ix hix
  exact hl.length_dataOf (hs.mem_preorder.1 hix)

/-- The stream starts with the data of the root. -/
theorem Small.stream_eq (hs : s.Small) : s.stream tree =
    Block.dataOf (tree 0).2 ++ ((s.children 0).flatMap s.subtree).flatMap fun ix => Block.dataOf (tree ix).2 := by
  rw [stream, hs.preorder_eq, hs.fits.subtree_eq s.totalBlocks_pos, List.flatMap_cons]

/-- Reading a laid-out stack gives the data of its subtrees. -/
theorem Laid.read_eq (hs : s.Small) (hl : s.Laid tree) {lookup : Join.Lookup}
    (hlook : ∀ asked, ∀ ix < s.totalBlocks, lookup asked (tree ix).1 = some (tree ix).2) (fuel : Nat)
    (asked : List BlockId) (stack : List Nat) (hlt : ∀ ix ∈ stack, ix < s.totalBlocks)
    (hf : (stack.flatMap s.subtree).length ≤ fuel) :
    (Join.read s lookup fuel asked (stack.map fun ix => (ix, (tree ix).1))).result =
      .ok ((stack.flatMap s.subtree).flatMap fun ix => Block.dataOf (tree ix).2) := by
  induction fuel generalizing asked stack with
  | zero =>
    rw [List.eq_nil_of_length_eq_zero (Nat.le_zero.1 hf)]
    cases stack with
    | nil => simp [Join.read, Join.Run.stop]
    | cons ix stack => simp [Join.read, Join.Run.stop]
  | succ fuel ih =>
    cases stack with
    | nil => simp [Join.read, Join.Run.stop]
    | cons ix stack =>
      have hix := hlt ix List.mem_cons_self
      obtain ⟨block, hopen, hlinks⟩ := hl ix hix
      have hstack : Join.linked s ix block.links ++ stack.map (fun j => (j, (tree j).1)) =
          (s.children ix ++ stack).map fun j => (j, (tree j).1) := by
        rw [(Join.linked_of_openBlock hopen).1, hlinks, ← List.map_prod_left_eq_zip, List.map_append]
      rw [List.flatMap_cons, hs.fits.subtree_eq hix] at hf ⊢
      have hrest := ih ((tree ix).1 :: asked) (s.children ix ++ stack)
        (by
          intro c hc
          rcases List.mem_append.1 hc with hc | hc
          · exact (hs.fits.lt_of_mem_children hix hc).2
          · exact hlt c (List.mem_cons_of_mem _ hc))
        (by
          rw [List.flatMap_append]
          simpa using hf)
      rw [List.map_cons, Join.read]
      simp only [hlook asked ix hix, hopen, Join.Run.afterLookup, hstack, hrest, Except.map,
        List.flatMap_append, List.cons_append, List.flatMap_cons, Block.dataOf_eq (Join.openBlock_eq_ok_iff.1 hopen).1]

end Schema

namespace EncodedBlob

variable {tag : DataTag} {payload stream : Bytes}

/-! ## Frames -/

/-- A frame is a header that declares the payload and its tag, then the two. -/
theorem frame_eq_ok_iff : frame tag payload = .ok stream ↔
    ∃ header, Header.encode (payload.length + 1) = .ok header ∧ stream = header ++ tag.byte :: payload := by
  unfold frame
  cases Header.encode (payload.length + 1) with
  | error e => simp [bind, Except.bind]
  | ok header =>
    simp only [bind, Except.bind, pure, Except.pure, Except.ok.injEq]
    constructor
    · rintro rfl
      exact ⟨header, rfl, rfl⟩
    · rintro ⟨_, rfl, rfl⟩
      rfl

/-- A framed payload is as long as its schema says, and a header can declare that. -/
theorem small_of_frame (size : BlockSize) (h : frame tag payload = .ok stream) :
    (Schema.ofDeclared size (payload.length + 1)).Small ∧
      stream.length = (Schema.ofDeclared size (payload.length + 1)).length := by
  obtain ⟨header, henc, rfl⟩ := frame_eq_ok_iff.1 h
  obtain ⟨hlt, hlen⟩ := Header.length_lt henc
  obtain ⟨hsmall, hlength⟩ := Schema.small_ofDeclared size hlt
  refine ⟨hsmall, ?_⟩
  rw [hlength, List.length_append, List.length_cons, hlen]
  omega

/-- A long enough beginning of a frame starts with the header. -/
theorem decode_of_frame {front back : Bytes} (h : frame tag payload = .ok (front ++ back))
    (hlen : 5 ≤ front.length) :
    ∃ rest, Header.decode front = .ok (payload.length + 1, tag.byte :: rest) ∧ payload = rest ++ back := by
  obtain ⟨header, henc, heq⟩ := frame_eq_ok_iff.1 h
  have hfour : header.length = 4 := (Header.length_lt henc).2
  rcases List.append_eq_append_iff.1 heq with ⟨gap, hheader, -⟩ | ⟨gap, hfront, hgap⟩
  · rw [hheader, List.length_append] at hfour
    omega
  · cases gap with
    | nil =>
      rw [List.append_nil] at hfront
      rw [hfront] at hlen
      omega
    | cons byte rest =>
      rw [List.cons_append] at hgap
      obtain ⟨rfl, rfl⟩ := List.cons.inj hgap
      refine ⟨rest, ?_, rfl⟩
      rw [hfront]
      exact Header.decode_of_encode henc _

/-! ## Joining -/

/-- A frame comes apart into its tag and payload. -/
theorem unframe_of_frame (h : frame tag payload = .ok stream) :
    Join.unframe (payload.length + 1) stream = .ok ⟨tag, payload⟩ := by
  obtain ⟨header, henc, rfl⟩ := frame_eq_ok_iff.1 h
  unfold Join.unframe
  rw [List.drop_left' (Header.length_lt henc).2]
  simp

variable {size : BlockSize} {tree : Nat → NamedBlock}

/-- Joining a tree whose stream is a framed payload gives the payload. -/
theorem join_of_laid (hl : (Schema.ofDeclared size (payload.length + 1)).Laid tree)
    (hf : frame tag payload = .ok ((Schema.ofDeclared size (payload.length + 1)).stream tree))
    {lookup : Join.Lookup}
    (hlook : ∀ asked, ∀ ix < (Schema.ofDeclared size (payload.length + 1)).totalBlocks,
      lookup asked (tree ix).1 = some (tree ix).2) :
    (Join.run size (tree 0).1 lookup).result = .ok ⟨tag, payload⟩ := by
  obtain ⟨hs, hlen⟩ := small_of_frame size hf
  generalize hS : Schema.ofDeclared size (payload.length + 1) = s at *
  have h0 := s.totalBlocks_pos
  obtain ⟨block, hopen, hlinks⟩ := hl 0 h0
  have hdecode := (Join.openBlock_eq_ok_iff.1 hopen).1
  have hunframe := unframe_of_frame hf
  rw [hs.stream_eq, Block.dataOf_eq hdecode] at hf hunframe
  -- the root's data alone says what is declared
  have hfive : 5 ≤ block.data.length := by
    rw [Join.data_of_openBlock hopen]
    apply s.five_le_dataSize_zero
    rw [← hS, (Schema.small_ofDeclared size (by
      obtain ⟨header, henc, -⟩ := frame_eq_ok_iff.1 hf
      exact (Header.length_lt henc).1)).2]
    simp only [lengthHeaderSize]
    omega
  obtain ⟨rest, hheader, -⟩ := decode_of_frame hf hfive
  have hdeclared : Join.declaredLength (tree 0).2 = .ok (payload.length + 1) := by
    unfold Join.declaredLength
    rw [hdecode]
    simp only [bind, Except.bind, hheader, pure, Except.pure]
  have hread := hl.read_eq hs hlook (s.totalBlocks - 1) [(tree 0).1] (s.children 0)
    (fun c hc => (hs.fits.lt_of_mem_children h0 hc).2) (by
      have := hs.fits.length_subtree_le h0
      rw [hs.fits.subtree_eq h0, List.length_cons] at this
      omega)
  have hstack : Join.linked s 0 block.links = (s.children 0).map fun j => (j, (tree j).1) := by
    rw [(Join.linked_of_openBlock hopen).1, hlinks, ← List.map_prod_left_eq_zip]
  unfold Join.run
  simp only [hlook [] 0 h0, Join.Run.afterLookup]
  unfold Join.runFrom
  simp only [hdeclared, hS, hopen, hstack, hread, bind, Except.bind, hunframe]

/-! ## Splitting -/

/-- The links of a block are the names at its children among the blocks behind it. -/
theorem links_eq {s : Schema} (hs : s.Small) {ix n : Nat} (h : ix + 1 + n = s.totalBlocks) (tree : Nat → NamedBlock) :
    (((((List.range' (ix + 1) n).map tree).drop (s.layout.firstChild ix - (ix + 1))).take (s.linkCount ix)).map
      fun b => b.1) = (s.children ix).map fun c => (tree c).1 := by
  have hix : ix < s.totalBlocks := by omega
  have hchildren := hs.fits.children_eq hix
  have hcount := s.linkCount_eq ix
  have hreach := s.reach_le (ix + 1)
  have hfirst := hs.fits.firstChild_eq hix
  have hpos := Nat.le_mul_of_pos_right ix s.size.linksPerBlock_pos
  rw [← List.map_drop, ← List.map_take, List.map_map, List.drop_range']
  -- without links, the numbering may lead beyond the tree, and nothing is taken from there
  rcases Nat.eq_zero_or_pos (s.linkCount ix) with h0 | h0
  · rw [hchildren, ← hcount, h0]
    simp
  · have hr : s.reach ix = ix * s.size.linksPerBlock + 1 := by
      unfold Schema.reach at *
      omega
    rw [List.take_range'_of_length_ge (by omega), hchildren, ← hcount]
    congr 2
    omega

/-- The blocks of a named tree are what its data is built into. -/
theorem build_of_laid {s : Schema} (hs : s.Small) (hl : s.Laid tree) (hn : s.Named tree) (data : Nat → Bytes)
    (hdata : ∀ ix < s.totalBlocks, data ix = Block.dataOf (tree ix).2) {n : Nat} (h : n ≤ s.totalBlocks) :
    build s data n = .ok ((List.range' (s.totalBlocks - n) n).map tree) := by
  induction n with
  | zero => rfl
  | succ n ih =>
    obtain ⟨ix, hix⟩ : ∃ ix, ix + 1 + n = s.totalBlocks := ⟨s.totalBlocks - (n + 1), by omega⟩
    have hlt : ix < s.totalBlocks := by omega
    obtain ⟨block, hopen, hlinks⟩ := hl ix hlt
    have hdecode := (Join.openBlock_eq_ok_iff.1 hopen).1
    have hencode := Block.encode_of_decode hdecode
    have hname : BlockId.of (tree ix).2 = (tree ix).1 := hn ix hlt
    rw [build, ih (by omega), show s.totalBlocks - (n + 1) = ix by omega, show s.totalBlocks - n = ix + 1 by omega]
    simp only [bind, Except.bind]
    rw [links_eq hs hix, ← hlinks, hdata ix hlt, Block.dataOf_eq hdecode, hencode]
    simp only [pure, Except.pure, hname, List.range'_succ, List.map_cons]

/-- What data is built into is a named tree with that data, if every share has the right size. -/
theorem laid_of_build {s : Schema} (hs : s.Small) {data : Nat → Bytes} {n : Nat} {blocks : List NamedBlock}
    (h : n ≤ s.totalBlocks) (hb : build s data n = .ok blocks) :
    ∃ tree : Nat → NamedBlock, blocks = (List.range' (s.totalBlocks - n) n).map tree ∧
      ∀ ix, s.totalBlocks - n ≤ ix → ix < s.totalBlocks → (tree ix).1.Names (tree ix).2 ∧
        Block.decode (tree ix).2 = .ok ⟨(s.children ix).map fun c => (tree c).1, data ix⟩ := by
  induction n generalizing blocks with
  | zero =>
    cases hb
    refine ⟨fun _ => (BlockId.of [], []), rfl, ?_⟩
    intro ix hle hlt
    omega
  | succ n ih =>
    obtain ⟨ix, hix⟩ : ∃ ix, ix + 1 + n = s.totalBlocks := ⟨s.totalBlocks - (n + 1), by omega⟩
    rw [build, show s.totalBlocks - (n + 1) = ix by omega] at hb
    cases hbelow : build s data n with
    | error e => simp [hbelow, bind, Except.bind] at hb
    | ok below =>
      obtain ⟨tree, rfl, htree⟩ := ih (by omega) hbelow
      rw [show s.totalBlocks - n = ix + 1 by omega] at hbelow htree
      simp only [hbelow, bind, Except.bind, links_eq hs hix] at hb
      cases hencode : Block.encode ⟨(s.children ix).map fun c => (tree c).1, data ix⟩ with
      | error e => simp [hencode] at hb
      | ok raw =>
        simp only [hencode, pure, Except.pure, Except.ok.injEq] at hb
        -- the new block goes in front; it changes neither the blocks behind it nor their children
        have hchild : ∀ j, ix ≤ j → j < s.totalBlocks →
            ((s.children j).map fun c => (Function.update tree ix (BlockId.of raw, raw) c).1) =
              (s.children j).map fun c => (tree c).1 := by
          intro j hj hlt
          apply List.map_congr_left
          intro c hc
          have := (hs.fits.lt_of_mem_children hlt hc).1
          rw [Function.update_of_ne (by omega)]
        refine ⟨Function.update tree ix (BlockId.of raw, raw), ?_, ?_⟩
        · rw [← hb, show s.totalBlocks - (n + 1) = ix by omega, List.range'_succ, List.map_cons,
            Function.update_self]
          congr 1
          apply List.map_congr_left
          intro j hj
          have := (List.mem_range'_1.1 hj).1
          rw [Function.update_of_ne (by omega)]
        · intro j hle hlt
          rw [hchild j (by omega) hlt]
          by_cases hj : j = ix
          · subst hj
            rw [Function.update_self]
            exact ⟨rfl, Block.decode_of_encode hencode⟩
          · rw [Function.update_of_ne hj]
            exact htree j (by omega) hlt

/-- Splitting the payload whose frame is the stream of a named tree gives that tree. -/
theorem split_of_laid (hl : (Schema.ofDeclared size (payload.length + 1)).Laid tree)
    (hn : (Schema.ofDeclared size (payload.length + 1)).Named tree)
    (hf : frame tag payload = .ok ((Schema.ofDeclared size (payload.length + 1)).stream tree)) :
    split size tag payload = .ok ⟨(tree 0).1,
      (List.range (Schema.ofDeclared size (payload.length + 1)).totalBlocks).map tree⟩ := by
  obtain ⟨hs, -⟩ := small_of_frame size hf
  unfold split
  rw [hf]
  generalize Schema.ofDeclared size (payload.length + 1) = s at *
  have hcut := s.cut_flatMap s.preorder (fun ix => Block.dataOf (tree ix).2)
    fun ix hix => hl.length_dataOf (hs.mem_preorder.1 hix)
  have hbuild := build_of_laid hs hl hn (dataAt (fileShares s.totalBlocks (s.cut s.preorder (s.stream tree))))
    (fun ix hix => by
      rw [Schema.stream, hcut]
      exact dataAt_fileShares hix (hs.mem_preorder.2 hix)) (Nat.le_refl _)
  simp only [bind, Except.bind, hbuild, Nat.sub_self]
  rw [← List.range_eq_range', s.range_totalBlocks]
  rfl

/-- What a payload is split into is a named tree whose stream is the framed payload. -/
theorem laid_of_split {blob : EncodedBlob} (h : split size tag payload = .ok blob) :
    ∃ tree : Nat → NamedBlock, (Schema.ofDeclared size (payload.length + 1)).Laid tree ∧
      (Schema.ofDeclared size (payload.length + 1)).Named tree ∧
      frame tag payload = .ok ((Schema.ofDeclared size (payload.length + 1)).stream tree) ∧
      blob = ⟨(tree 0).1, (List.range (Schema.ofDeclared size (payload.length + 1)).totalBlocks).map tree⟩ := by
  unfold split at h
  cases hframe : frame tag payload with
  | error e => simp [hframe, bind, Except.bind] at h
  | ok stream =>
    obtain ⟨hs, hlen⟩ := small_of_frame size hframe
    generalize Schema.ofDeclared size (payload.length + 1) = s at *
    -- the frame is cut into shares along the preorder, and every block is built from its own
    obtain ⟨share, hshare, rfl⟩ := s.exists_shares (hs.preorder_perm.nodup_iff.2 List.nodup_range) _
      (hlen.trans hs.sum_dataSize_preorder.symm)
    simp only [hframe, bind, Except.bind, s.cut_flatMap _ _ hshare] at h
    cases hbuild : build s (dataAt (fileShares s.totalBlocks (s.preorder.map fun ix => (ix, share ix))))
        s.totalBlocks with
    | error e => simp [hbuild] at h
    | ok blocks =>
      obtain ⟨tree, hblocks, htree⟩ := laid_of_build hs (Nat.le_refl _) hbuild
      rw [Nat.sub_self] at hblocks htree
      have hdata : ∀ ix < s.totalBlocks,
          dataAt (fileShares s.totalBlocks (s.preorder.map fun ix => (ix, share ix))) ix = share ix :=
        fun ix hix => dataAt_fileShares hix (hs.mem_preorder.2 hix)
      refine ⟨tree, ?_, fun ix hix => (htree ix (Nat.zero_le _) hix).1, ?_, ?_⟩
      · intro ix hix
        have hdecode := (htree ix (Nat.zero_le _) hix).2
        refine ⟨_, Join.openBlock_eq_ok_iff.2 ⟨hdecode, ?_, ?_⟩, rfl⟩
        · rw [Block.length_of_decode hdecode, s.blockSize_of_lt hix]
          simp only [List.length_map, hdata ix hix, hshare ix (hs.mem_preorder.2 hix)]
          simp [Schema.children]
        · simp [Schema.children]
      · congr 1
        apply List.flatMap_congr
        intro ix hix
        have hlt := hs.mem_preorder.1 hix
        rw [Block.dataOf_eq (htree ix (Nat.zero_le _) hlt).2, hdata ix hlt]
      · rw [← List.range_eq_range', s.range_totalBlocks, List.map_cons] at hblocks
        subst hblocks
        simp only [hbuild, pure, Except.pure, Except.ok.injEq] at h
        rw [← h, s.range_totalBlocks, List.map_cons]

/-! ## Splitting and joining -/

/-- Joining what a payload was split into gives the payload back. The lookup has the blob's blocks
under their ids; what it answers for other ids plays no part. -/
theorem join_split {blob : EncodedBlob} {lookup : Join.Lookup} (hsplit : split size tag payload = .ok blob)
    (hdistinct : ∀ b ∈ blob.blocks, ∀ b' ∈ blob.blocks, b.1 = b'.1 → b.2 = b'.2)
    (hlook : ∀ asked, ∀ b ∈ blob.blocks, ∃ b' ∈ blob.blocks, b'.1 = b.1 ∧ lookup asked b.1 = some b'.2) :
    (Join.run size blob.root lookup).result = .ok ⟨tag, payload⟩ := by
  obtain ⟨tree, hlaid, -, hframe, rfl⟩ := laid_of_split hsplit
  refine join_of_laid hlaid hframe ?_
  intro asked ix hix
  have hmem : tree ix ∈ (List.range (Schema.ofDeclared size (payload.length + 1)).totalBlocks).map tree :=
    List.mem_map.2 ⟨ix, List.mem_range.2 hix, rfl⟩
  obtain ⟨b, hb, hid, hraw⟩ := hlook asked _ hmem
  rw [hraw, hdistinct b hb _ hmem hid]

/-- Two leaves with the same bytes have one id. -/
theorem join_split_repeated : ∃ blob : EncodedBlob,
    split ⟨71, by decide, by decide, by decide⟩ .blockBody (List.replicate 138 1) = .ok blob ∧
    ¬ (blob.blocks.map Prod.fst).Nodup ∧
    (∀ b ∈ blob.blocks, ∀ b' ∈ blob.blocks, b.1 = b'.1 → b.2 = b'.2) ∧
    (∀ b ∈ blob.blocks, ∃ b' ∈ blob.blocks, b'.1 = b.1 ∧ Table.get? b.1 blob.blocks = some b'.2) ∧
    (Join.run ⟨71, by decide, by decide, by decide⟩ blob.root fun _ id => Table.get? id blob.blocks).result =
      .ok ⟨.blockBody, List.replicate 138 1⟩ := by
  have hchecked : (split ⟨71, by decide, by decide, by decide⟩ .blockBody (List.replicate 138 1)).toOption.any
      fun blob => decide (¬ (blob.blocks.map Prod.fst).Nodup ∧
        ∀ b ∈ blob.blocks, ∀ b' ∈ blob.blocks, b.1 = b'.1 → b.2 = b'.2) := by decide +kernel
  rcases hsplit : split ⟨71, by decide, by decide, by decide⟩ .blockBody (List.replicate 138 1) with e | blob
  · rw [hsplit] at hchecked
    cases hchecked
  · rw [hsplit] at hchecked
    obtain ⟨hrepeated, hdistinct⟩ := of_decide_eq_true hchecked
    have hlook : ∀ b ∈ blob.blocks, ∃ b' ∈ blob.blocks, b'.1 = b.1 ∧ Table.get? b.1 blob.blocks = some b'.2 := by
      intro b hb
      obtain ⟨raw, hraw⟩ := Option.isSome_iff_exists.1 (Table.get?_isSome_of_mem hb)
      exact ⟨(b.1, raw), Table.mem_of_get? hraw, rfl, hraw⟩
    exact ⟨blob, rfl, hrepeated, hdistinct, hlook, join_split hsplit hdistinct fun _ => hlook⟩

end EncodedBlob

end BlockDag
