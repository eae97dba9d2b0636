/-
What a downloader deals with: a store, a network, and the order in which it happens to go through a
set. Every call may change the world, so a store may answer differently each time, and a fetch may
fail at any time.
-/
import BlockDag.Download.Session
import BlockDag.Store.Basic

namespace BlockDag

/-- The calls on a world with contents `ω`. -/
structure World (ω : Type) where
  view : BlockId → ω → Except StoreError Bytes × ω
  put : BlockId → Bytes → ω → Except StoreError Unit × ω
  setStatus : RootId → RootStatus → ω → Except StoreError Unit × ω
  getStatus : RootId → ω → Except StoreError (Option RootStatus) × ω
  /-- Asks for blocks under a session; `live` says whether the session goes on. -/
  fetch : (session : SessionId) → (live : Bool) → List BlockId → ω → Except FetchError Unit × ω
  /-- The order in which the elements of a set come up. -/
  arrange : {α : Type} → List α → ω → List α × ω
  /-- Every element comes up exactly once. -/
  arrange_perm : ∀ {α : Type} (xs : List α) (w : ω), (arrange xs w).1.Perm xs

/-- What a downloader deals with apart from its store. -/
structure Outside (ν : Type) where
  fetch : (session : SessionId) → (live : Bool) → List BlockId → ν → Except FetchError Unit × ν
  arrange : {α : Type} → List α → ν → List α × ν
  arrange_perm : ∀ {α : Type} (xs : List α) (w : ν), (arrange xs w).1.Perm xs

/-- The world made of a store, which only the downloader changes, and an outside that knows nothing
of it. -/
def World.over {σ ν : Type} (S : BlockStore σ) (N : Outside ν) : World (σ × ν) where
  view id w := (S.view w.1 id, w)
  put id raw w :=
    let (outcome, s) := S.put w.1 id raw
    (outcome, (s, w.2))
  setStatus root goal w :=
    let (outcome, s) := S.setStatus w.1 root goal
    (outcome, (s, w.2))
  getStatus root w := (S.getStatus w.1 root, w)
  fetch session live blocks w :=
    let (outcome, n) := N.fetch session live blocks w.2
    (outcome, (w.1, n))
  arrange xs w :=
    let (ys, n) := N.arrange xs w.2
    (ys, (w.1, n))
  arrange_perm xs w := N.arrange_perm xs w.2

end BlockDag
