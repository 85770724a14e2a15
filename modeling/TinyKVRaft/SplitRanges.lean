import Mathlib.Algebra.Group.Int
import Mathlib.Data.List.Chain

namespace TinyKVRaft.Executor

/-!
# Splitting unsigned handle ranges at `MaxInt64`

`splitRanges` of tinysql's `executor/distsql.go`.  A table whose handle is an unsigned
integer stores the handles in `(MaxInt64, MaxUint64]` before those in `[0, MaxInt64]`, so
a scan that keeps the order sends the two parts as two requests, and
`TableReaderExecutor.Open` reads the first list it gets first.  `splitRanges` finds the
first range that ends above `MaxInt64` with Go's `sort.Search`, and cuts it in two.

`sort.Search` presumes a predicate that switches from false to true once.  On sorted
ranges that each hold a handle it does, and the split is exact: the two lists cover the
input's handles, no two of their ranges meet, each list keeps to one side of `MaxInt64`
and stays sorted, and the side read first follows `desc`.  A range that holds no handle
may end below an earlier one, so the predicate can switch back, and the search then
misses a range that straddles `MaxInt64`.

A handle range has one datum per bound, which is all `splitRanges` reads (`LowVal[0]`,
`HighVal[0]`).
-/

/-- The kinds of `types.Datum` a handle bound takes. -/
inductive Kind where
  | kindInt64
  | kindUint64
  deriving Repr, DecidableEq

/-- A handle bound, a `types.Datum` holding a signed or an unsigned 64-bit integer. -/
inductive Datum where
  | int64 (i : Int)
  | uint64 (u : Nat)
  deriving Repr, DecidableEq

namespace Datum

/-- `Kind`. -/
def kind : Datum → Kind
  | .int64 _ => .kindInt64
  | .uint64 _ => .kindUint64

/-- `GetUint64`: the datum's 64 bits read as an unsigned integer. -/
def getUint64 : Datum → Nat
  | .int64 i => (i % 2 ^ 64).toNat
  | .uint64 u => u

end Datum

/-- `types.NewUintDatum`. -/
def newUintDatum (u : Nat) : Datum :=
  .uint64 u

/-- `math.MaxInt64`. -/
def maxInt64 : Nat :=
  2 ^ 63 - 1

/-- `ranger.Range` over the handle: a low and a high bound, each included or excluded. -/
structure Range where
  lowVal : Datum
  highVal : Datum
  lowExclude : Bool := false
  highExclude : Bool := false
  deriving Repr, DecidableEq

/-! ## `sort.Search` -/

/-- The loop of Go's `sort.Search` over `[i, j)`, with fuel for its at most `n` rounds. -/
def searchLoop (f : Nat → Bool) : Nat → Nat → Nat → Nat
  | 0, i, _ => i
  | fuel + 1, i, j =>
      if i < j then
        let h := (i + j) / 2
        if !f h then searchLoop f fuel (h + 1) j else searchLoop f fuel i h
      else i

/-- `sort.Search(n, f)`: the least index of `[0, n)` where `f` holds, or `n`. -/
def search (n : Nat) (f : Nat → Bool) : Nat :=
  searchLoop f n 0 n

section Search

variable {f : Nat → Bool} {n : Nat}

/--
For a predicate that switches from false to true once below `n`, the loop keeps `f`
false below `i` and true at `j` unless `j = n`, so it ends at the switch.
-/
theorem searchLoop_spec (mono : ∀ a b, a ≤ b → b < n → f a = true → f b = true) :
    ∀ fuel i j, j - i ≤ fuel → i ≤ j → j ≤ n → (∀ k < i, f k = false) →
      (j < n → f j = true) →
      searchLoop f fuel i j ≤ n ∧ (∀ k < searchLoop f fuel i j, f k = false) ∧
        (searchLoop f fuel i j < n → f (searchLoop f fuel i j) = true)
  | 0, i, j, bound, ordered, within, below, above => by
      obtain rfl : i = j := by omega
      exact ⟨within, below, above⟩
  | fuel + 1, i, j, bound, ordered, within, below, above => by
      simp only [searchLoop]
      split_ifs with inside fails
      · -- `f` fails at the midpoint, so at every index up to it
        simp only [Bool.not_eq_true'] at fails
        refine searchLoop_spec mono fuel _ _ (by omega) (by omega) within (fun k lt => ?_) above
        by_cases early : k < i
        · exact below k early
        · cases holds : f k
          · rfl
          · exact absurd (mono k ((i + j) / 2) (by omega) (by omega) holds) (by simp [fails])
      · -- `f` holds at the midpoint
        simp only [Bool.not_eq_true', Bool.not_eq_false] at fails
        exact searchLoop_spec mono fuel _ _ (by omega) (by omega) (by omega) below fun _ => fails
      · obtain rfl : i = j := by omega
        exact ⟨within, below, above⟩

/-- `sort.Search` on a predicate that switches from false to true once finds the switch. -/
theorem search_spec (mono : ∀ a b, a ≤ b → b < n → f a = true → f b = true) :
    search n f ≤ n ∧ (∀ k < search n f, f k = false) ∧ (search n f < n → f (search n f) = true) :=
  searchLoop_spec mono n 0 n (by omega) (Nat.zero_le n) le_rfl
    (fun _ negative => absurd negative (Nat.not_lt_zero _)) (fun past => absurd past (lt_irrefl n))

end Search

/-! ## `splitRanges` -/

/-- The predicate `splitRanges` gives `sort.Search`: the `i`-th range ends above `MaxInt64`. -/
def endsUnsigned (ranges : List Range) (i : Nat) : Bool :=
  match ranges.get? i with
  | some rg => decide (maxInt64 < rg.highVal.getUint64)
  | none => false

/--
The part at or below `MaxInt64` of the range the search found, `[LowVal, MaxInt64]`,
unless it is empty (`MaxInt64` excluded).
-/
def signedPiece (rg : Range) : List Range :=
  if ¬(rg.lowVal.getUint64 = maxInt64 ∧ rg.lowExclude = true) then
    [{ lowVal := rg.lowVal, lowExclude := rg.lowExclude, highVal := newUintDatum maxInt64 }]
  else []

/--
The part above `MaxInt64` of the range the search found, `[MaxInt64 + 1, HighVal]`,
unless it is empty (`MaxInt64 + 1` excluded).
-/
def unsignedPiece (rg : Range) : List Range :=
  if ¬(rg.highVal.getUint64 = maxInt64 + 1 ∧ rg.highExclude = true) then
    [{ lowVal := newUintDatum (maxInt64 + 1), highVal := rg.highVal, highExclude := rg.highExclude }]
  else []

/--
The return of both branches of `splitRanges`: one list, unsigned part first, unless the
order is kept; the unsigned part first when descending.
-/
def arrange (keepOrder desc : Bool) (signedRanges unsignedRanges : List Range) :
    List Range × List Range :=
  if !keepOrder then (unsignedRanges ++ signedRanges, [])
  else if desc then (unsignedRanges, signedRanges)
  else (signedRanges, unsignedRanges)

/--
`splitRanges`: signed handles and an empty list go through; otherwise cut at the first
range ending above `MaxInt64`, whole when it starts above it.  `ranges.get? idx` is `none`
exactly when `idx = len(ranges)`, as `sort.Search` returns at most `len(ranges)`.
-/
def splitRanges (ranges : List Range) (keepOrder desc : Bool) : List Range × List Range :=
  match ranges with
  | [] => (ranges, [])
  | first :: _ =>
      if first.lowVal.kind = .kindInt64 then (ranges, [])
      else
        let idx := search ranges.length (endsUnsigned ranges)
        match ranges.get? idx with
        | none => (ranges, [])
        | some rg =>
            if maxInt64 < rg.lowVal.getUint64 then
              arrange keepOrder desc (ranges.take idx) (ranges.drop idx)
            else
              arrange keepOrder desc (ranges.take idx ++ signedPiece rg)
                (unsignedPiece rg ++ ranges.drop (idx + 1))

/-! ## What the ranges cover -/

namespace Range

/-- The unsigned handles `rg` holds, its bounds read by `GetUint64`. -/
def contains (rg : Range) (h : Nat) : Prop :=
  (if rg.lowExclude then rg.lowVal.getUint64 < h else rg.lowVal.getUint64 ≤ h) ∧
    (if rg.highExclude then h < rg.highVal.getUint64 else h ≤ rg.highVal.getUint64)

instance (rg : Range) (h : Nat) : Decidable (rg.contains h) :=
  inferInstanceAs (Decidable (_ ∧ _))

/-- Every handle of `a` lies below every handle of `b`. -/
def Before (a b : Range) : Prop :=
  ∀ x y, a.contains x → b.contains y → x < y

/-- `a` and `b` hold no handle in common. -/
def Disjoint (a b : Range) : Prop :=
  ∀ h, a.contains h → ¬b.contains h

/-- The last handle `rg` can hold. -/
def top (rg : Range) : Nat :=
  if rg.highExclude then rg.highVal.getUint64 - 1 else rg.highVal.getUint64

variable {rg a b a' b' : Range} {h : Nat}

theorem le_high (held : rg.contains h) : h ≤ rg.highVal.getUint64 := by
  obtain ⟨-, high⟩ := held
  split at high <;> omega

theorem le_top (held : rg.contains h) : h ≤ rg.top := by
  obtain ⟨-, high⟩ := held
  unfold top
  cases exclude : rg.highExclude <;> simp only [exclude, if_true, Bool.false_eq_true, if_false] at high ⊢ <;>
    omega

/-- A range that holds a handle holds its last one. -/
theorem contains_top (held : rg.contains h) : rg.contains rg.top := by
  obtain ⟨low, high⟩ := held
  unfold contains top
  cases exclude : rg.lowExclude <;> cases exclude' : rg.highExclude <;>
    simp only [exclude, exclude', if_true, Bool.false_eq_true, if_false] at low high ⊢ <;> omega

/-- A range ending above `MaxInt64` can hold a handle at or above it. -/
theorem top_above (ends : maxInt64 < rg.highVal.getUint64) : maxInt64 ≤ rg.top := by
  unfold top
  split <;> omega

theorem Before.disjoint (before : a.Before b) : a.Disjoint b :=
  fun h first second => lt_irrefl h (before h h first second)

theorem Disjoint.symm (apart : a.Disjoint b) : b.Disjoint a :=
  fun h second first => apart h first second

theorem Before.mono (before : a.Before b) (within : ∀ h, a'.contains h → a.contains h)
    (within' : ∀ h, b'.contains h → b.contains h) : a'.Before b' :=
  fun x y first second => before x y (within x first) (within' y second)

/-- `Before` passes through a range that holds a handle. -/
theorem Before.trans (first : a.Before b) (second : b.Before a') (held : b.contains h) :
    a.Before a' :=
  fun x z left right => (first x h left held).trans (second h z held right)

end Range

/-- Some range of `rs` holds `h`. -/
def Covers (rs : List Range) (h : Nat) : Prop :=
  ∃ rg ∈ rs, rg.contains h

/-- Every handle of `rs` is at most `MaxInt64`. -/
def Signed (rs : List Range) : Prop :=
  ∀ rg ∈ rs, ∀ h, rg.contains h → h ≤ maxInt64

/-- Every handle of `rs` is above `MaxInt64`. -/
def Unsigned (rs : List Range) : Prop :=
  ∀ rg ∈ rs, ∀ h, rg.contains h → maxInt64 < h

@[simp] theorem covers_append {rs rs' : List Range} {h : Nat} :
    Covers (rs ++ rs') h ↔ Covers rs h ∨ Covers rs' h := by
  simp only [Covers, List.mem_append, or_and_right, exists_or]

@[simp] theorem covers_cons {rg : Range} {rs : List Range} {h : Nat} :
    Covers (rg :: rs) h ↔ rg.contains h ∨ Covers rs h := by
  simp only [Covers, List.mem_cons, or_and_right, exists_or, exists_eq_left]

/-- Sorted ranges that each hold a handle are sorted pairwise. -/
theorem pairwise_before_of_chain {rs : List Range} (nonempty : ∀ rg ∈ rs, ∃ h, rg.contains h)
    (sorted : rs.Chain' Range.Before) : rs.Pairwise Range.Before := by
  induction rs with
  | nil => exact .nil
  | cons a rest inductionHypothesis =>
      have later := inductionHypothesis (fun rg mem => nonempty rg (.tail _ mem)) sorted.tail
      refine List.pairwise_cons.mpr ⟨fun c mem => ?_, later⟩
      cases rest with
      | nil => cases mem
      | cons b rest =>
          have first : a.Before b := sorted.rel_head
          rcases List.mem_cons.mp mem with rfl | mem
          · exact first
          · obtain ⟨h, held⟩ := nonempty b (by simp)
            exact first.trans (List.rel_of_pairwise_cons later mem) held

/-! ## The split is exact on sorted ranges that hold handles -/

/--
The two lists of a cut of `ranges` at `MaxInt64`: together sorted and covering the
handles of `ranges`, the first at or below `MaxInt64`, the second above.
-/
def Parts (ranges signedRanges unsignedRanges : List Range) : Prop :=
  (signedRanges ++ unsignedRanges).Pairwise Range.Before ∧
    (∀ h, Covers (signedRanges ++ unsignedRanges) h ↔ Covers ranges h) ∧
    Signed signedRanges ∧ Unsigned unsignedRanges

/--
What a table reader needs of the two lists `splitRanges` returns: no two of their ranges meet,
together they cover the input's handles, with the order kept each keeps to one side of
`MaxInt64` and is sorted, the first of two is the side a scan in direction `desc` reads
first, and without the order there is one list.
-/
def SplitCorrect (ranges : List Range) (keepOrder desc : Bool) (split : List Range × List Range) :
    Prop :=
  (split.1 ++ split.2).Pairwise Range.Disjoint ∧
    (∀ h, Covers (split.1 ++ split.2) h ↔ Covers ranges h) ∧
    (keepOrder = true → (Signed split.1 ∨ Unsigned split.1) ∧ (Signed split.2 ∨ Unsigned split.2) ∧
      split.1.Pairwise Range.Before ∧ split.2.Pairwise Range.Before) ∧
    (split.1 ≠ [] → split.2 ≠ [] → (desc = false → Signed split.1) ∧ (desc = true → Unsigned split.1)) ∧
    (keepOrder = false → split.2 = [])

/-- The handles of the signed piece are those of the range at or below `MaxInt64`. -/
theorem covers_signedPiece {rg : Range} (ends : maxInt64 < rg.highVal.getUint64) (h : Nat) :
    Covers (signedPiece rg) h ↔ rg.contains h ∧ h ≤ maxInt64 := by
  have highHeld : h ≤ maxInt64 →
      if rg.highExclude then h < rg.highVal.getUint64 else h ≤ rg.highVal.getUint64 :=
    fun below => by split <;> omega
  unfold signedPiece
  split_ifs with empty
  · refine ⟨fun ⟨_, mem, _⟩ => absurd mem (List.not_mem_nil _), fun ⟨⟨low, _⟩, below⟩ => ?_⟩
    rw [if_pos empty.2, empty.1] at low
    omega
  · refine ⟨fun ⟨_, mem, held⟩ => ?_, fun ⟨⟨low, _⟩, below⟩ => ⟨_, .head _, low, below⟩⟩
    obtain rfl := List.mem_singleton.mp mem
    exact ⟨⟨held.1, highHeld held.2⟩, held.2⟩

/-- The handles of the unsigned piece are those of the range above `MaxInt64`. -/
theorem covers_unsignedPiece {rg : Range} (starts : rg.lowVal.getUint64 ≤ maxInt64) (h : Nat) :
    Covers (unsignedPiece rg) h ↔ rg.contains h ∧ maxInt64 < h := by
  have lowHeld : maxInt64 < h →
      if rg.lowExclude then rg.lowVal.getUint64 < h else rg.lowVal.getUint64 ≤ h :=
    fun above => by split <;> omega
  unfold unsignedPiece
  split_ifs with empty
  · refine ⟨fun ⟨_, mem, _⟩ => absurd mem (List.not_mem_nil _), fun ⟨⟨_, high⟩, above⟩ => ?_⟩
    rw [if_pos empty.2, empty.1] at high
    omega
  · refine ⟨fun ⟨_, mem, held⟩ => ?_, fun ⟨⟨_, high⟩, above⟩ => ⟨_, .head _, above, high⟩⟩
    obtain rfl := List.mem_singleton.mp mem
    exact ⟨⟨lowHeld held.1, held.2⟩, held.1⟩


section Split

variable {ranges pre post : List Range} {rg : Range}

/-- Either arrangement of correct parts is a correct split. -/
theorem arrange_correct {signedRanges unsignedRanges : List Range}
    (parts : Parts ranges signedRanges unsignedRanges) (keepOrder desc : Bool) :
    SplitCorrect ranges keepOrder desc (arrange keepOrder desc signedRanges unsignedRanges) := by
  obtain ⟨sorted, covers, signed, unsigned⟩ := parts
  have apart := sorted.imp Range.Before.disjoint
  have swapped : ∀ h, Covers (unsignedRanges ++ signedRanges) h ↔ Covers ranges h := fun h => by
    rw [← covers h, covers_append, covers_append, or_comm]
  obtain ⟨sortedSigned, sortedUnsigned, -⟩ := List.pairwise_append.mp sorted
  have joined : ∀ desc, SplitCorrect ranges false desc (unsignedRanges ++ signedRanges, []) := by
    refine fun _ => ⟨?_, ?_, nofun, fun _ none => absurd rfl none, fun _ => rfl⟩
    · simpa using apart.perm List.perm_append_comm Range.Disjoint.symm
    · simpa using swapped
  cases keepOrder
  · exact joined desc
  cases desc
  · exact ⟨apart, covers, fun _ => ⟨.inl signed, .inr unsigned, sortedSigned, sortedUnsigned⟩,
      fun _ _ => ⟨fun _ => signed, nofun⟩, nofun⟩
  · exact ⟨apart.perm List.perm_append_comm Range.Disjoint.symm, swapped,
      fun _ => ⟨.inr unsigned, .inl signed, sortedUnsigned, sortedSigned⟩,
      fun _ _ => ⟨nofun, fun _ => unsigned⟩, nofun⟩

/-- Sorted ranges all at or below `MaxInt64` are a correct split as they are. -/
theorem signed_correct (sorted : ranges.Pairwise Range.Before) (signed : Signed ranges)
    (keepOrder desc : Bool) : SplitCorrect ranges keepOrder desc (ranges, []) := by
  refine ⟨by simpa using sorted.imp Range.Before.disjoint, by simp, fun _ => ?_,
    fun _ none => absurd rfl none, fun _ => rfl⟩
  exact ⟨.inl signed, .inl nofun, sorted, .nil⟩

variable (sorted : (pre ++ rg :: post).Pairwise Range.Before)
  (nonempty : ∀ r ∈ pre ++ rg :: post, ∃ h, r.contains h)
  (preSigned : ∀ a ∈ pre, a.highVal.getUint64 ≤ maxInt64) (ends : maxInt64 < rg.highVal.getUint64)

include sorted nonempty ends in
/-- Every range after the one that ends above `MaxInt64` lies above it. -/
theorem unsigned_post : Unsigned post := by
  intro b mem y held
  obtain ⟨x, heldRg⟩ := nonempty rg (by simp)
  have before : rg.Before b :=
    (List.pairwise_cons.mp (List.pairwise_append.mp sorted).2.1).1 b mem
  have := before _ y (Range.contains_top heldRg) held
  have := Range.top_above ends
  omega

include preSigned in
theorem signed_pre : Signed pre :=
  fun a mem _ held => (Range.le_high held).trans (preSigned a mem)

include sorted nonempty ends in
/-- The range found starts above `MaxInt64`: the cut falls before it. -/
theorem whole_parts (starts : maxInt64 < rg.lowVal.getUint64) (preSigned : Signed pre) :
    Parts (pre ++ rg :: post) pre (rg :: post) := by
  refine ⟨sorted, fun _ => Iff.rfl, preSigned, ?_⟩
  rintro b (_ | ⟨_, mem⟩) y held
  · obtain ⟨low, -⟩ := held
    split at low <;> omega
  · exact unsigned_post sorted nonempty ends b mem y held


include sorted nonempty ends in
/-- The range found starts at or below `MaxInt64`: it is cut into its two pieces. -/
theorem split_parts (starts : rg.lowVal.getUint64 ≤ maxInt64) (preSigned : Signed pre) :
    Parts (pre ++ rg :: post) (pre ++ signedPiece rg) (unsignedPiece rg ++ post) := by
  have inSigned : ∀ p ∈ signedPiece rg, ∀ h, p.contains h → rg.contains h ∧ h ≤ maxInt64 :=
    fun p mem h held => (covers_signedPiece ends h).mp ⟨p, mem, held⟩
  have inUnsigned : ∀ p ∈ unsignedPiece rg, ∀ h, p.contains h → rg.contains h ∧ maxInt64 < h :=
    fun p mem h held => (covers_unsignedPiece starts h).mp ⟨p, mem, held⟩
  obtain ⟨sortedPre, sortedRest, preBefore⟩ := List.pairwise_append.mp sorted
  obtain ⟨rgBefore, sortedPost⟩ := List.pairwise_cons.mp sortedRest
  have beforeRg : ∀ a ∈ pre, a.Before rg := fun a mem => preBefore a mem rg (.head _)
  refine ⟨?_, fun h => ?_, ?_, ?_⟩
  · refine List.pairwise_append.mpr ⟨List.pairwise_append.mpr ⟨sortedPre, ?_, ?_⟩,
      List.pairwise_append.mpr ⟨?_, sortedPost, ?_⟩, ?_⟩
    · unfold signedPiece
      split <;> simp
    · exact fun a mem b mem' => (beforeRg a mem).mono (fun _ => id) fun h held => (inSigned b mem' h held).1
    · unfold unsignedPiece
      split <;> simp
    · exact fun a mem b mem' => (rgBefore b mem').mono (fun h held => (inUnsigned a mem h held).1) fun _ => id
    · intro a mem b mem'
      rcases List.mem_append.mp mem with mem | mem <;> rcases List.mem_append.mp mem' with mem' | mem'
      · exact (beforeRg a mem).mono (fun _ => id) fun h held => (inUnsigned b mem' h held).1
      · exact preBefore a mem b (.tail _ mem')
      · exact fun x y first second => (inSigned a mem x first).2.trans_lt (inUnsigned b mem' y second).2
      · exact (rgBefore b mem').mono (fun h held => (inSigned a mem h held).1) fun _ => id
  · simp only [covers_append, covers_cons, covers_signedPiece ends, covers_unsignedPiece starts]
    rcases le_or_lt h maxInt64 with signed | unsigned
    · simp only [signed, not_lt.mpr signed, and_true, and_false, or_false, false_or, or_assoc]
    · simp only [unsigned, not_le.mpr unsigned, and_true, and_false, or_false, false_or, or_assoc]
  · intro a mem
    rcases List.mem_append.mp mem with mem | mem
    exacts [preSigned a mem, fun h held => (inSigned a mem h held).2]
  · intro b mem
    rcases List.mem_append.mp mem with mem | mem
    exacts [fun h held => (inUnsigned b mem h held).2, unsigned_post sorted nonempty ends b mem]

end Split

/-- A list cut at an element it holds. -/
theorem take_append_cons_drop {α : Type} {l : List α} {i : Nat} {a : α} (found : l.get? i = some a) :
    l.take i ++ a :: l.drop (i + 1) = l ∧ l.drop i = a :: l.drop (i + 1) := by
  obtain ⟨within, rfl⟩ := List.getElem?_eq_some_iff.mp (by simpa using found)
  have dropped := List.drop_eq_getElem_cons within
  exact ⟨by rw [← dropped, List.take_append_drop], dropped⟩

/-- On sorted ranges that each hold a handle, ending above `MaxInt64` is monotone in the index. -/
theorem endsUnsigned_mono {ranges : List Range} (nonempty : ∀ rg ∈ ranges, ∃ h, rg.contains h)
    (sorted : ranges.Pairwise Range.Before) :
    ∀ a b, a ≤ b → b < ranges.length → endsUnsigned ranges a = true → endsUnsigned ranges b = true := by
  intro a b le within ends
  have within' : a < ranges.length := by omega
  simp only [endsUnsigned, List.get?_eq_getElem?, List.getElem?_eq_getElem within,
    List.getElem?_eq_getElem within', decide_eq_true_eq] at ends ⊢
  rcases Nat.lt_or_eq_of_le le with earlier | rfl
  · obtain ⟨x, heldA⟩ := nonempty _ (List.getElem_mem within')
    obtain ⟨y, heldB⟩ := nonempty _ (List.getElem_mem within)
    have := List.pairwise_iff_getElem.mp sorted a b within' within earlier _ y
      (Range.contains_top heldA) heldB
    have := Range.top_above ends
    have := Range.le_high heldB
    omega
  · exact ends

/--
`splitRanges` is exact on sorted ranges of unsigned handles that each hold a handle: the
two lists cover the input's handles and no two of their ranges meet; with the order kept,
each keeps to one side of `MaxInt64` and is sorted; the first of two nonempty lists is the
side at or below `MaxInt64` when ascending and the side above it when descending; and
without the order the second list is empty.
-/
theorem splitRanges_correct {ranges : List Range}
    (kinds : ∀ rg ∈ ranges, rg.lowVal.kind = .kindUint64 ∧ rg.highVal.kind = .kindUint64)
    (nonempty : ∀ rg ∈ ranges, ∃ h, rg.contains h) (sorted : ranges.Chain' Range.Before)
    (keepOrder desc : Bool) : SplitCorrect ranges keepOrder desc (splitRanges ranges keepOrder desc) := by
  have pairwise := pairwise_before_of_chain nonempty sorted
  obtain ⟨-, below, found⟩ := search_spec (endsUnsigned_mono nonempty pairwise)
  cases ranges with
  | nil => exact signed_correct .nil nofun keepOrder desc
  | cons first rest =>
      have unsignedKind : first.lowVal.kind ≠ .kindInt64 := by
        rw [(kinds first (.head _)).1]
        decide
      simp only [splitRanges, if_neg unsignedKind]
      generalize search (first :: rest).length (endsUnsigned (first :: rest)) = idx at below found ⊢
      -- the ranges before the search's index end at or below `MaxInt64`
      have endsBelow : ∀ k (within : k < (first :: rest).length), k < idx →
          (first :: rest)[k].highVal.getUint64 ≤ maxInt64 := by
        intro k within early
        have := below k early
        simp only [endsUnsigned, List.get?_eq_getElem?, List.getElem?_eq_getElem within,
          decide_eq_false_iff_not, Nat.not_lt] at this
        exact this
      cases got : (first :: rest).get? idx with
      | none =>
          have past : (first :: rest).length ≤ idx := by simpa using got
          refine signed_correct pairwise (fun rg mem h held => ?_) keepOrder desc
          obtain ⟨k, within, rfl⟩ := List.mem_iff_getElem.mp mem
          exact (Range.le_high held).trans (endsBelow k within (by omega))
      | some rg =>
          obtain ⟨cut, dropped⟩ := take_append_cons_drop got
          have within : idx < (first :: rest).length := by
            have := List.getElem?_eq_some_iff.mp (by simpa using got)
            exact this.1
          have ends : maxInt64 < rg.highVal.getUint64 := by
            have got' : (first :: rest)[idx]? = some rg := by simpa using got
            simpa [endsUnsigned, got'] using found within
          have preSigned : Signed ((first :: rest).take idx) := by
            intro a mem h held
            obtain ⟨k, withinTake, rfl⟩ := List.mem_iff_getElem.mp mem
            rw [List.length_take] at withinTake
            obtain ⟨early, withinAll⟩ := Nat.lt_min.mp withinTake
            rw [List.getElem_take] at held
            exact (Range.le_high held).trans (endsBelow k withinAll early)
          rw [← cut] at pairwise nonempty
          dsimp only
          split_ifs with starts
          · have parts := whole_parts pairwise nonempty ends starts preSigned
            rw [cut, ← dropped] at parts
            exact arrange_correct parts keepOrder desc
          · have parts := split_parts pairwise nonempty ends (Nat.le_of_not_lt starts) preSigned
            rw [cut] at parts
            exact arrange_correct parts keepOrder desc

/-- Two sorted ranges of unsigned handles, the second straddling `MaxInt64`. -/
def straddlingRanges : List Range :=
  [{ lowVal := .uint64 1, highVal := .uint64 5 }, { lowVal := .uint64 10, highVal := .uint64 (2 ^ 63 + 5) }]

/-- Kept in order and ascending, the straddling range is cut at `MaxInt64`. -/
theorem straddlingRanges_split :
    splitRanges straddlingRanges true false =
        ([{ lowVal := .uint64 1, highVal := .uint64 5 },
          { lowVal := .uint64 10, highVal := .uint64 maxInt64 }],
          [{ lowVal := .uint64 (maxInt64 + 1), highVal := .uint64 (2 ^ 63 + 5) }]) ∧
      SplitCorrect straddlingRanges true false (splitRanges straddlingRanges true false) := by
  have nonempty : ∀ rg ∈ straddlingRanges, ∃ h, rg.contains h := by
    intro rg mem
    rcases List.mem_pair.mp mem with rfl | rfl
    exacts [⟨1, by decide⟩, ⟨10, by decide⟩]
  have sorted : straddlingRanges.Chain' Range.Before := by
    refine List.chain'_pair.mpr fun x y first second => ?_
    simp only [Range.contains, Datum.getUint64, Bool.false_eq_true, if_false] at first second
    omega
  exact ⟨rfl, splitRanges_correct (by decide) nonempty sorted true false⟩

/--
A range straddling `MaxInt64`, then a range that holds no handle: sorted and disjoint,
but the second range ends below the first.
-/
def straddleThenEmpty : List Range :=
  [{ lowVal := .uint64 1, highVal := .uint64 (2 ^ 63) },
    { lowVal := .uint64 5, highVal := .uint64 5, lowExclude := true, highExclude := true }]

/--
With a range that holds no handle, the search misses the range straddling `MaxInt64`:
kept in order, the first list returned holds handles on both sides of it.
-/
theorem emptyRange_hides_straddle :
    (∀ rg ∈ straddleThenEmpty, rg.lowVal.kind = .kindUint64 ∧ rg.highVal.kind = .kindUint64) ∧
      straddleThenEmpty.Pairwise Range.Before ∧ straddleThenEmpty.Pairwise Range.Disjoint ∧
      splitRanges straddleThenEmpty true false = (straddleThenEmpty, []) ∧
      ¬(Signed straddleThenEmpty ∨ Unsigned straddleThenEmpty) := by
  have sorted : straddleThenEmpty.Pairwise Range.Before := by
    refine List.pairwise_pair.mpr fun x y _ second => ?_
    simp only [Range.contains, Datum.getUint64, if_true] at second
    omega
  refine ⟨by decide, sorted, sorted.imp Range.Before.disjoint, rfl, ?_⟩
  rintro (signed | unsigned)
  · exact absurd (signed _ (.head _) (2 ^ 63) (by decide)) (by decide)
  · exact absurd (unsigned _ (.head _) 1 (by decide)) (by decide)

end TinyKVRaft.Executor
