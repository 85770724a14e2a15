import Mathlib.Data.List.Lex
import TinyKVRaft.Applier

namespace TinyKVRaft.Metapb

/-!
# Regions: key ranges, epochs and peers

`metapb.Region` in full, as executing a command reads and writes it: an id, the key range
`[StartKey, EndKey)` with an empty `EndKey` for a range open to the right, the epoch
(`ConfVer` counts membership changes, `Version` changes of the range) and the peers.
Keys are byte strings compared as Go's `bytes.Compare` compares them, lexicographically
with a proper prefix first, which is Mathlib's order on `List Nat`.

`util.CheckKeyInRegion`, `util.FindPeer` and `util.RemovePeer` are not under src/; the
key check is `Contains`, and the two peer functions are the callback model's, read on the
region's peers (`view`), which is all that model keeps of a region.
-/

open Raftstore (Peer)

/-- `metapb.RegionEpoch`. -/
structure RegionEpoch where
  confVer : Nat := 0
  version : Nat := 0
  deriving Repr, DecidableEq

/-- `metapb.Region`. -/
structure Region where
  id : Nat
  startKey : List Nat := []
  endKey : List Nat := []
  regionEpoch : RegionEpoch := {}
  peers : List Peer := []
  deriving Repr, DecidableEq

namespace Region

/-- The region as the callback model of the applier reads it: its peers. -/
def view (region : Region) : Raftstore.Region :=
  { peers := region.peers }

/--
Modelled: the condition of `util.CheckKeyInRegion`, that the key lies in
`[StartKey, EndKey)`, an empty `EndKey` leaving the range open.
-/
def Contains (region : Region) (key : List Nat) : Prop :=
  region.startKey ≤ key ∧ (region.endKey = [] ∨ key < region.endKey)

instance (region : Region) : DecidablePred region.Contains :=
  fun key => inferInstanceAs (Decidable (region.startKey ≤ key ∧ (region.endKey = [] ∨ key < region.endKey)))

/-- The range holds a key: `EndKey` is open, or lies past `StartKey`. -/
def WellFormed (region : Region) : Prop :=
  region.endKey = [] ∨ region.startKey < region.endKey

instance : DecidablePred WellFormed :=
  fun region => inferInstanceAs (Decidable (region.endKey = [] ∨ region.startKey < region.endKey))

/-- `util.FindPeer` (not under src/): the region's peer on a store. -/
def findPeer (region : Region) (storeId : Nat) : Option Peer :=
  region.view.findPeer storeId

/-- `util.RemovePeer` (not under src/): drops the region's peer on a store and returns it. -/
def removePeer (region : Region) (storeId : Nat) : Option Peer × Region :=
  ((region.view.removePeer storeId).1, { region with peers := (region.view.removePeer storeId).2.peers })

/-- Removing a peer reads and changes only the peers, as the callback model's `removePeer` does. -/
theorem removePeer_view (region : Region) (storeId : Nat) :
    (region.removePeer storeId).1 = (region.view.removePeer storeId).1 ∧
      (region.removePeer storeId).2.view = (region.view.removePeer storeId).2 :=
  ⟨rfl, rfl⟩

/-- Removing a peer keeps the id, the range and the epoch. -/
theorem removePeer_frame (region : Region) (storeId : Nat) :
    ∃ peers, (region.removePeer storeId).2 = { region with peers } :=
  ⟨_, rfl⟩

/-! ## Splitting a range -/

section Split

variable (region : Region) {splitKey : List Nat}

/--
A key `splitKey` past `StartKey` and inside the range cuts it in two: `[StartKey, splitKey)`
and `[splitKey, EndKey)` hold every key of the range, and no key is in both.
-/
theorem contains_split (past : region.startKey < splitKey) (inside : region.Contains splitKey)
    (key : List Nat) :
    (region.Contains key ↔
      ({ region with endKey := splitKey } : Region).Contains key ∨
        ({ region with startKey := splitKey } : Region).Contains key) ∧
      ¬(({ region with endKey := splitKey } : Region).Contains key ∧
        ({ region with startKey := splitKey } : Region).Contains key) := by
  have nonempty : splitKey ≠ [] := by
    rintro rfl
    exact (List.Lex.not_nil_right _ _) past
  simp only [Contains, nonempty, false_or]
  refine ⟨⟨fun ⟨above, below⟩ => ?_, ?_⟩, ?_⟩
  · rcases lt_or_le key splitKey with before | after
    · exact .inl ⟨above, before⟩
    · exact .inr ⟨after, below⟩
  · rintro (⟨above, before⟩ | ⟨after, below⟩)
    · exact ⟨above, inside.2.imp_right (lt_trans before)⟩
    · exact ⟨past.le.trans after, below⟩
  · rintro ⟨⟨-, before⟩, after, -⟩
    exact absurd before (not_lt.mpr after)

/-- Both halves of a split are well formed. -/
theorem wellFormed_split (past : region.startKey < splitKey) (inside : region.Contains splitKey) :
    ({ region with endKey := splitKey } : Region).WellFormed ∧
      ({ region with startKey := splitKey } : Region).WellFormed :=
  ⟨.inr past, inside.2.imp_right fun below => below⟩

end Split

/-! ## How a region changes -/

/--
What applying commands may make of a region `r`: the same region, its range the same or
narrower and its epoch the same or later, with `Version` raised whenever the range changed
and `ConfVer` whenever the peers did.  A well-formed range stays well formed.
-/
structure Evolves (r r' : Region) : Prop where
  id_eq : r'.id = r.id
  within : ∀ key, r'.Contains key → r.Contains key
  wellFormed : r.WellFormed → r'.WellFormed
  confVer_le : r.regionEpoch.confVer ≤ r'.regionEpoch.confVer
  version_le : r.regionEpoch.version ≤ r'.regionEpoch.version
  range_changed : r'.startKey ≠ r.startKey ∨ r'.endKey ≠ r.endKey →
    r.regionEpoch.version < r'.regionEpoch.version
  peers_changed : r'.peers ≠ r.peers → r.regionEpoch.confVer < r'.regionEpoch.confVer

namespace Evolves

variable {r r' r'' : Region}

theorem refl (r : Region) : r.Evolves r where
  id_eq := rfl
  within _ inside := inside
  wellFormed formed := formed
  confVer_le := le_rfl
  version_le := le_rfl
  range_changed changed := by simp at changed
  peers_changed changed := absurd rfl changed

theorem trans (first : r.Evolves r') (second : r'.Evolves r'') : r.Evolves r'' where
  id_eq := second.id_eq.trans first.id_eq
  within key inside := first.within key (second.within key inside)
  wellFormed formed := second.wellFormed (first.wellFormed formed)
  confVer_le := first.confVer_le.trans second.confVer_le
  version_le := first.version_le.trans second.version_le
  range_changed changed := by
    by_cases kept : r'.startKey = r.startKey ∧ r'.endKey = r.endKey
    · rw [← kept.1, ← kept.2] at changed
      exact first.version_le.trans_lt (second.range_changed changed)
    · exact (first.range_changed (not_and_or.mp kept)).trans_le second.version_le
  peers_changed changed := by
    by_cases kept : r'.peers = r.peers
    · exact first.confVer_le.trans_lt (second.peers_changed (kept ▸ changed))
    · exact (first.peers_changed kept).trans_le second.confVer_le

/--
What the epoch is for: a region that evolved without a change of epoch has the range and
the peers it had.
-/
theorem eq_of_epoch (evolved : r.Evolves r') (same : r'.regionEpoch = r.regionEpoch) :
    r'.startKey = r.startKey ∧ r'.endKey = r.endKey ∧ r'.peers = r.peers := by
  have range := mt evolved.range_changed (by rw [same]; exact lt_irrefl _)
  have peers := mt evolved.peers_changed (by rw [same]; exact lt_irrefl _)
  simp only [not_or, not_not] at range peers
  exact ⟨range.1, range.2, peers⟩

end Evolves

/-- The part of a region from a split key on, with `Version` raised, evolves from it. -/
theorem evolves_split {splitKey : List Nat} (region : Region) (past : region.startKey < splitKey)
    (inside : region.Contains splitKey) :
    region.Evolves { region with
      regionEpoch := { region.regionEpoch with version := region.regionEpoch.version + 1 }, startKey := splitKey } where
  id_eq := rfl
  within _ := fun ⟨after, below⟩ => ⟨past.le.trans after, below⟩
  wellFormed _ := (wellFormed_split region past inside).2
  confVer_le := le_rfl
  version_le := Nat.le_succ _
  range_changed _ := Nat.lt_succ_self _
  peers_changed changed := absurd rfl changed

/-- A region with `ConfVer` raised and its peers changed evolves from it. -/
theorem evolves_changePeers (region : Region) (peers : List Peer) :
    region.Evolves { region with
      regionEpoch := { region.regionEpoch with confVer := region.regionEpoch.confVer + 1 }, peers } where
  id_eq := rfl
  within _ inside := inside
  wellFormed formed := formed
  confVer_le := Nat.le_succ _
  version_le := le_rfl
  range_changed changed := by simp at changed
  peers_changed _ := Nat.lt_succ_self _

end Region

end TinyKVRaft.Metapb
