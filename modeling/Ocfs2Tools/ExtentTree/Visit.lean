import Ocfs2Tools.Lib.FoldStop
import Ocfs2Tools.ExtentTree.Iterate
import Ocfs2Tools.ExtentTree.Path
import Ocfs2Tools.ExtentTree.Shape

/-!
# What the extent iterator visits

For callbacks that only look at the records, the walk of `extent_iterate_el` is a list of
calls: the nonempty leaf records from left to right, and around each subtree the record
that leads to it. The iterator itself writes nothing, except that it may find another last
leaf than the inode names: it passes over interior records without clusters.
-/

namespace Ocfs2Tools

open List Prog ExtentRec

variable {κ : Type} {fs : Filesys} {mode : IterMode} {s : St} {ebs : Nat → Option ExtentBlock}
  {lo hi d : Nat} {el : ExtentList} {rs : List ExtentRec} {ks : List Node} {di : Dinode}
  {stop : Bool}

/-! ### Trees in order -/

def nextCpos (hi : Nat) : List ExtentRec → Nat
  | [] => hi
  | r :: _ => r.eCpos

/-- What each record leads to lies between its first cluster and that of the next one. -/
def InOrder (P : Nat → Nat → Node → Prop) : Nat → Nat → List ExtentRec → List Node → Prop
  | lo, hi, [], [] => lo ≤ hi
  | lo, hi, r :: rs, k :: ks =>
    lo ≤ r.eCpos ∧ P r.eCpos (nextCpos hi rs) k ∧ InOrder P (nextCpos hi rs) hi rs ks
  | _, _, _, _ => False

instance decidableInOrder (P : Nat → Nat → Node → Prop) [∀ lo hi k, Decidable (P lo hi k)] :
    ∀ lo hi rs ks, Decidable (InOrder P lo hi rs ks)
  | lo, hi, [], [] => inferInstanceAs (Decidable (lo ≤ hi))
  | lo, hi, r :: rs, k :: ks =>
    have := decidableInOrder P (nextCpos hi rs) hi rs ks
    inferInstanceAs (Decidable (lo ≤ r.eCpos ∧ P r.eCpos (nextCpos hi rs) k ∧ _))
  | _, _, [], _ :: _ => .isFalse id
  | _, _, _ :: _, [] => .isFalse id

/-- A tree of depth `d` over `[lo, hi)` with its records in order. In a leaf only the first
    record may be empty; interior records may be without clusters anywhere. -/
def Ordered : Nat → Nat → Nat → ExtentList → List Node → Prop
  | 0, lo, hi, el, ks => el.lTreeDepth = 0 ∧ el.lNextFreeRec ≤ el.lCount ∧ ks = [] ∧
      (∀ r ∈ el.live.tail, isEmptyExtent r = false) ∧
      Spaced eCpos eLeafClusters lo el.nonempty hi
  | d + 1, lo, hi, el, ks => el.lTreeDepth = d + 1 ∧ el.lNextFreeRec ≤ el.lCount ∧ el.live ≠ [] ∧
      InOrder (fun lo hi k => Ordered d lo hi k.eb.hList k.kids) lo hi el.live ks

instance decidableOrdered : (d lo hi : Nat) → (el : ExtentList) → (ks : List Node) →
    Decidable (Ordered d lo hi el ks)
  | 0, lo, hi, el, ks => inferInstanceAs (Decidable (el.lTreeDepth = 0 ∧
      el.lNextFreeRec ≤ el.lCount ∧ ks = [] ∧ (∀ r ∈ el.live.tail, isEmptyExtent r = false) ∧
      Spaced eCpos eLeafClusters lo el.nonempty hi))
  | d + 1, lo, hi, el, ks =>
    have : ∀ (lo hi : Nat) (k : Node), Decidable (Ordered d lo hi k.eb.hList k.kids) :=
      fun lo hi k => decidableOrdered d lo hi k.eb.hList k.kids
    inferInstanceAs (Decidable (el.lTreeDepth = d + 1 ∧ el.lNextFreeRec ≤ el.lCount ∧
      el.live ≠ [] ∧ InOrder (fun lo hi k => Ordered d lo hi k.eb.hList k.kids) lo hi el.live ks))

theorem Ordered.depth : ∀ {d lo hi el ks}, Ordered d lo hi el ks → el.lTreeDepth = d
  | 0, _, _, _, _, h => h.1
  | _ + 1, _, _, _, _, h => h.1

theorem Ordered.le_count : ∀ {d lo hi el ks}, Ordered d lo hi el ks → el.lNextFreeRec ≤ el.lCount
  | 0, _, _, _, _, h => h.2.1
  | _ + 1, _, _, _, _, h => h.2.1

variable {P : Nat → Nat → Node → Prop}

theorem InOrder.le (hP : ∀ lo hi k, P lo hi k → lo ≤ hi) :
    ∀ {rs ks lo hi}, InOrder P lo hi rs ks → lo ≤ hi
  | [], [], _, _, h => h
  | _ :: _, _ :: _, _, _, h => le_trans h.1 (le_trans (hP _ _ _ h.2.1) (InOrder.le hP h.2.2))

theorem Ordered.le : ∀ {d lo hi el ks}, Ordered d lo hi el ks → lo ≤ hi
  | 0, _, _, _, _, h => h.2.2.2.2.le
  | _ + 1, _, _, _, _, h => h.2.2.2.le fun _ _ _ hk => Ordered.le hk

theorem InOrder.spaced_flatMap {f : Node → List ExtentRec}
    (hP : ∀ lo hi k, P lo hi k → Spaced eCpos eLeafClusters lo (f k) hi) :
    ∀ {rs ks lo hi}, InOrder P lo hi rs ks → Spaced eCpos eLeafClusters lo (ks.flatMap f) hi
  | [], [], _, _, h => h
  | _ :: _, k :: ks, _, _, h => by
    rw [flatMap_cons, spaced_append]
    exact ⟨_, (hP _ _ k h.2.1).weaken h.1 (le_refl _), InOrder.spaced_flatMap hP h.2.2⟩

theorem Ordered.recs_spaced : ∀ {d lo hi el ks},
    Ordered d lo hi el ks → Spaced eCpos eLeafClusters lo (treeRecs d el ks) hi
  | 0, _, _, _, _, h => h.2.2.2.2
  | _ + 1, _, _, _, _, h => h.2.2.2.spaced_flatMap fun _ _ _ hk => Ordered.recs_spaced hk

theorem InOrder.weaken (hP : ∀ lo hi hi' k, P lo hi k → hi ≤ hi' → P lo hi' k) :
    ∀ {rs ks lo hi hi'}, InOrder P lo hi rs ks → hi ≤ hi' → InOrder P lo hi' rs ks
  | [], [], _, _, _, h, hle => le_trans h hle
  | [_], [_], _, _, hi', h, hle => ⟨h.1, hP _ _ _ _ h.2.1 hle, le_refl hi'⟩
  | _ :: _ :: _, _ :: _ :: _, _, _, _, h, hle => ⟨h.1, h.2.1, InOrder.weaken hP h.2.2 hle⟩

theorem Ordered.weaken : ∀ {d lo hi hi' el ks},
    Ordered d lo hi el ks → hi ≤ hi' → Ordered d lo hi' el ks
  | 0, _, _, _, _, _, h, hle => ⟨h.1, h.2.1, h.2.2.1, h.2.2.2.1, h.2.2.2.2.weaken (le_refl _) hle⟩
  | d + 1, _, _, _, _, _, h, hle =>
    ⟨h.1, h.2.1, h.2.2.1, InOrder.weaken (P := fun lo hi k => Ordered d lo hi k.eb.hList k.kids)
      (fun _ _ _ _ hk => Ordered.weaken hk) h.2.2.2 hle⟩

theorem LeafOk.tail_nonempty (h : LeafOk fs lo hi el) :
    ∀ r ∈ el.live.tail, isEmptyExtent r = false := by
  intro r hr
  have hsub : ∀ rs : List ExtentRec, r ∈ rs.tail → r ∈ dropEmpty rs := by
    intro rs hr
    cases rs with
    | nil => exact hr
    | cons x xs =>
      simp only [dropEmpty]
      split
      · exact hr
      · exact mem_cons_of_mem _ hr
  have hpos := (h.spaced.mem_bounds r (hsub _ hr)).2.1
  simp only [isEmptyExtent, beq_eq_false_iff_ne]
  exact Nat.pos_iff_ne_zero.mp hpos

theorem LeafOk.ordered (h : LeafOk fs lo hi el) : Ordered 0 lo hi el [] :=
  ⟨h.depth, h.le, rfl, h.tail_nonempty, h.nonempty_spaced⟩

theorem inOrder_of_tiled {d : Nat} : ∀ {rs ks lo hi}, Tiled eCpos eIntClusters lo rs hi →
    List.Forall₂ (fun r k => Ordered d r.eCpos (r.eCpos + r.eIntClusters) k.eb.hList k.kids) rs ks →
    InOrder (fun lo hi k => Ordered d lo hi k.eb.hList k.kids) lo hi rs ks
  | [], _, _, _, ht, .nil => ht
  | [r], _, _, hi, ht, .cons h .nil => by
    obtain ⟨rfl, -, hle⟩ := ht
    exact ⟨le_refl _, h.weaken hle, le_refl hi⟩
  | r :: r' :: rs, _, _, _, ht, .cons h (.cons h' hs) => by
    obtain ⟨rfl, -, ht⟩ := ht
    have hnext : r'.eCpos = r.eCpos + r.eIntClusters := ht.1
    refine ⟨le_refl _, ?_, ?_⟩
    · simpa only [nextCpos, hnext] using h
    · simpa only [nextCpos, hnext] using inOrder_of_tiled ht (.cons h' hs)

theorem WfList.ordered : ∀ {d right lo hi el ks}, WfList fs d right lo hi el ks →
    Ordered d lo hi el ks
  | 0, _, _, _, _, _, h => h.2.2.1 ▸ h.1.ordered
  | _ + 1, _, _, _, _, _, h =>
    ⟨h.1.depth, h.1.le, h.1.ne, inOrder_of_tiled h.1.tiled
      (EachLast.forall₂ (fun _ _ _ hk => hk.2.ordered) h.2.2)⟩

/-! ### The calls -/

/-- What a callback that only looks makes of the caller's data, and whether it returns
    `OCFS2_EXTENT_ABORT`. -/
abbrev Look (κ : Type) : Type := ExtentRec → Nat → κ → Bool × κ

/-- `OCFS2_EXTENT_ABORT` or 0. -/
def stopFlags (stop : Bool) : IterFlags := ⟨false, stop, false⟩

/-- `func` changes neither the record nor the state, and does with the caller's data what
    `look` says. -/
def Looks (func : ExtentFunc κ) (look : Look κ) (s : St) : Prop :=
  ∀ r d p, func r d p s = some (.ok (stopFlags (look r d p).1, r, (look r d p).2), s)

/-- The call on an interior record, before what it leads to or after it. -/
def callAt (after : Bool) (mode : IterMode) (r : ExtentRec) (d : Nat) : List (ExtentRec × Nat) :=
  if mode.dataOnly = false ∧ mode.depthTraverse = after then [(r, d)] else []

/-- The records handed to the callback and their depths, in the order of the calls. -/
def visits (mode : IterMode) : Nat → ExtentList → List Node → List (ExtentRec × Nat)
  | 0, el, _ => el.nonempty.map fun r => (r, 0)
  | d + 1, el, ks => (el.live.zip ks).flatMap fun p =>
      callAt false mode p.1 (d + 1) ++ visits mode d p.2.eb.hList p.2.kids ++
        callAt true mode p.1 (d + 1)

def leafPointers : Nat → ExtentList → List Node → List ExtentRec
  | 0, _, _ => []
  | 1, el, _ => el.live
  | d + 2, _, ks => ks.flatMap fun k => leafPointers (d + 1) k.eb.hList k.kids

/-- The blocks the iterator notes as the last leaf, one after the other. -/
def notedBlks (d : Nat) (el : ExtentList) (ks : List Node) : List Nat :=
  ((leafPointers d el ks).filter fun r => decide (r.eIntClusters ≠ 0)).map eBlkno

/-- Whether the calls `cs` were stopped, and the caller's data after them. -/
def lookAll (look : Look κ) (p : κ) (cs : List (ExtentRec × Nat)) : Bool × κ :=
  foldStop (fun p c => look c.1 c.2 p) p cs

/-- A walk that has made the calls `cs` and noted the blocks `bs`, unless it was stopped. -/
structure WalkedTo (look : Look κ) (cs : List (ExtentRec × Nat)) (bs : List Nat) (hi : Nat)
    (ctxt : ExtentContext κ) (stop : Bool) (ctxt' : ExtentContext κ) : Prop where
  calls : lookAll look ctxt.privData cs = (stop, ctxt'.privData)
  last : stop = false → ctxt'.lastEbBlkno = bs.getLastD ctxt.lastEbBlkno
  cpos : stop = false → ctxt'.lastEbCpos ≤ hi

variable {p : κ}

section Walk

variable {func : ExtentFunc κ} {look : Look κ} {cs cs' : List (ExtentRec × Nat)}
  {bs bs' : List Nat} {hi hi' : Nat} {stop : Bool} {c c' c'' : ExtentContext κ}
  {i : Nat} {r : ExtentRec} {k : Node}

theorem WalkedTo.trans (h : WalkedTo look cs bs hi c false c')
    (h' : WalkedTo look cs' bs' hi' c' stop c'') :
    WalkedTo look (cs ++ cs') (bs ++ bs') hi' c stop c'' where
  calls := (foldStop_append_go h.calls cs').trans h'.calls
  last hs := by
    rw [h'.last hs, h.last rfl, getLastD_eq_getLast?, getLastD_eq_getLast?,
      getLastD_eq_getLast?, getLast?_append]
    cases bs'.getLast? <;> rfl
  cpos := h'.cpos

theorem WalkedTo.stopped (h : WalkedTo look cs bs hi c true c') (cs' : List (ExtentRec × Nat))
    (bs' : List Nat) (hi' : Nat) (hp : c''.privData = c'.privData) :
    WalkedTo look (cs ++ cs') bs' hi' c true c'' :=
  ⟨(foldStop_append_stop h.calls cs').trans (by rw [hp]), (by simp), (by simp)⟩

theorem walkedTo_calls (h : lookAll look c.privData cs = (stop, p)) (hcpos : c.lastEbCpos ≤ hi) :
    WalkedTo look cs [] hi c stop { c with privData := p } :=
  ⟨h, fun _ => rfl, fun _ => hcpos⟩

theorem callAfter_stopped (r : ExtentRec) (d : Nat) (c : ExtentContext κ) :
    callAfter mode func (stopFlags true) r d c s = some (.ok (stopFlags true, r, c), s) := by
  rw [callAfter, if_neg fun h => by cases h.2.2]
  rfl

variable {step : Nat → ExtentRec → ExtentContext κ → M (IterFlags × ExtentRec × ExtentContext κ)}

theorem iterateRecs_stop (hstep : step i r c s = some (.ok (stopFlags true, r, c'), s)) :
    iterateRecs step i (r :: rs) IterFlags.nothing c s =
      some (.ok (stopFlags true, r :: rs, c'), s) := by
  rw [iterateRecs, bind_ok hstep]
  rfl

theorem iterateRecs_go (hstep : step i r c s = some (.ok (stopFlags false, r, c'), s))
    (hrest : iterateRecs step (i + 1) rs IterFlags.nothing c' s =
      some (.ok (stopFlags stop, rs, c''), s)) :
    iterateRecs step i (r :: rs) IterFlags.nothing c s =
      some (.ok (stopFlags stop, r :: rs, c''), s) := by
  rw [iterateRecs, bind_ok hstep]
  exact bind_ok hrest _

theorem finishEl_live_eq (d : Nat) (el : ExtentList) :
    finishEl d (stopFlags stop).changed el el.live = el := finishEl_unchanged

/-- The walk of a list of depth `d` with its children `ks`. -/
def WalksList (fs : Filesys) (mode : IterMode) (func : ExtentFunc κ) (look : Look κ) (s : St)
    (d : Nat) : Prop :=
  ∀ (lo hi : Nat) (el : ExtentList) (ks : List Node) (c : ExtentContext κ),
    Ordered d lo hi el ks → readKids s.dev.ebs d el = some ks →
    (∀ b ∈ treeBlocks d ks, outOfRange fs b = false) → c.lastEbCpos ≤ lo →
    ∃ stop c', extentIterateEl fs mode func d el c s = some (.ok (stopFlags stop, el, c'), s) ∧
      WalkedTo look (visits mode d el ks) (notedBlks d el ks) hi c stop c'

/-- The blocks noted for the record `r` of a list of depth `d + 1` that leads to `k`. -/
def notedAt (d : Nat) (r : ExtentRec) (k : Node) : List Nat :=
  match d with
  | 0 => if r.eIntClusters ≠ 0 then [r.eBlkno] else []
  | d + 1 => notedBlks (d + 1) k.eb.hList k.kids

theorem notedBlks_succ : ∀ d el ks, el.live.length = ks.length →
    notedBlks (d + 1) el ks = (el.live.zip ks).flatMap fun p => notedAt d p.1 p.2
  | 0, el, ks, hlen => by
    simp only [notedBlks, leafPointers, notedAt]
    generalize el.live = rs at hlen ⊢
    induction rs generalizing ks with
    | nil => rfl
    | cons r rs ih =>
      cases ks with
      | nil => cases hlen
      | cons k ks =>
        rw [zip_cons_cons, flatMap_cons, ← ih ks (Nat.succ.inj hlen)]
        by_cases hr : r.eIntClusters = 0 <;> simp [hr]
  | d + 1, el, ks, hlen => by
    have hsnd : (el.live.zip ks).map Prod.snd = ks := map_snd_zip (le_of_eq hlen.symm)
    have hks : ks.flatMap (fun k => notedBlks (d + 1) k.eb.hList k.kids) =
        (el.live.zip ks).flatMap fun p => notedAt (d + 1) p.1 p.2 := by
      rw [← hsnd, flatMap_map]
      simp only [hsnd, notedAt]
    rw [← hks]
    simp only [notedBlks, leafPointers, filter_flatMap, map_flatMap]

theorem WalkedTo.noteEb_one (h : WalkedTo look cs [] r.eCpos c stop c') (hle : r.eCpos ≤ hi) :
    WalkedTo look cs (notedAt 0 r k) hi c stop (c'.noteEb 1 r) := by
  refine ⟨h.calls.trans ?_, fun hs => ?_, fun hs => ?_⟩
  · unfold ExtentContext.noteEb
    split <;> rfl
  · by_cases hr : r.eIntClusters = 0
    · have hnote : c'.noteEb 1 r = c' := if_neg fun hc => hc.1 hr
      have hat : notedAt 0 r k = [] := if_neg (not_not_intro hr)
      rw [hnote, hat]
      exact h.last hs
    · have hnote : c'.noteEb 1 r = { c' with lastEbBlkno := r.eBlkno, lastEbCpos := r.eCpos } :=
        if_pos ⟨hr, h.cpos hs⟩
      have hat : notedAt 0 r k = [r.eBlkno] := if_pos hr
      rw [hnote, hat]
      rfl
  · unfold ExtentContext.noteEb
    split
    · exact hle
    · exact le_trans (h.cpos hs) hle

theorem WalkedTo.noteEb_succ (h : WalkedTo look cs bs hi c stop c') (hle : r.eCpos ≤ hi) :
    WalkedTo look cs bs hi c stop (c'.noteEb (d + 2) r) := by
  unfold ExtentContext.noteEb
  split
  · refine ⟨h.calls, fun hs => ?_, fun _ => hle⟩
    exact h.last hs
  · exact h

variable (h : Looks func look s)

include h

theorem callFunc_looks (r : ExtentRec) (d : Nat)
    (hcpos : c.lastEbCpos ≤ hi) : ∃ stop c', callFunc func r d c s =
      some (.ok (stopFlags stop, r, c'), s) ∧ WalkedTo look [(r, d)] [] hi c stop c' ∧
      c'.lastEbCpos = c.lastEbCpos := by
  refine ⟨_, _, bind_ok (h r d c.privData) _, walkedTo_calls (foldStop_singleton ..) hcpos, rfl⟩

variable (mode) in
theorem callBefore_looks (r : ExtentRec) (d : Nat)
    (hcpos : c.lastEbCpos ≤ hi) : ∃ stop c', callBefore mode func r d c s =
      some (.ok (stopFlags stop, r, c'), s) ∧
      WalkedTo look (callAt false mode r d) [] hi c stop c' ∧ c'.lastEbCpos = c.lastEbCpos := by
  rw [callBefore, callAt]
  split
  · next hm =>
    rw [if_pos hm.symm]
    exact callFunc_looks h r d hcpos
  · next hm =>
    rw [if_neg fun h => hm h.symm]
    exact ⟨false, c, rfl, walkedTo_calls rfl hcpos, rfl⟩

variable (mode) in
theorem callAfter_looks (r : ExtentRec) (d : Nat)
    (hcpos : c.lastEbCpos ≤ hi) : ∃ stop c', callAfter mode func IterFlags.nothing r d c s =
      some (.ok (stopFlags stop, r, c'), s) ∧
      WalkedTo look (callAt true mode r d) [] hi c stop c' ∧ c'.lastEbCpos = c.lastEbCpos := by
  rw [callAfter, callAt]
  by_cases hm : mode.dataOnly = false ∧ mode.depthTraverse = true
  · rw [if_pos ⟨hm.2, hm.1, rfl⟩, if_pos hm]
    exact callFunc_looks h r d hcpos
  · rw [if_neg fun h => hm ⟨h.2.1, h.1⟩, if_neg hm]
    exact ⟨false, c, rfl, walkedTo_calls rfl hcpos, rfl⟩

/-- The loop over the records of a leaf: the calls are on the nonempty ones. Only the first
    record of the leaf may be empty. -/
theorem iterateRecs_leaf_looks : ∀ rs i c, (∀ r ∈ rs,
    isEmptyExtent r = true → i = 0) → (∀ r ∈ rs.tail, isEmptyExtent r = false) → c.lastEbCpos ≤ hi →
    ∃ stop c', iterateRecs (leafStep func) i rs IterFlags.nothing c s =
        some (.ok (stopFlags stop, rs, c'), s) ∧
      WalkedTo look ((rs.filter fun r => !isEmptyExtent r).map fun r => (r, 0)) [] hi c stop c' ∧
      c'.lastEbCpos = c.lastEbCpos
  | [], _, c, _, _, hcpos => ⟨false, c, rfl, walkedTo_calls rfl hcpos, rfl⟩
  | r :: rs, i, c, hfirst, htail, hcpos => by
    have hrest : ∀ c : ExtentContext κ, c.lastEbCpos ≤ hi → _ := fun c hc =>
      iterateRecs_leaf_looks rs (i + 1) c (fun r hr he => absurd he (by rw [htail r hr]; decide))
        (fun r hr => htail r (mem_of_mem_tail hr)) hc
    cases hr : isEmptyExtent r with
    | true =>
      -- the empty record in front is passed over
      have hstep : leafStep func i r c s = some (.ok (stopFlags false, r, c), s) := by
        rw [leafStep, if_pos ⟨hfirst r mem_cons_self hr, by simpa [isEmptyExtent] using hr⟩]
        rfl
      obtain ⟨stop, c', hrun, hw, hc⟩ := hrest c hcpos
      rw [filter_cons_of_neg (by rw [hr]; decide)]
      exact ⟨stop, c', iterateRecs_go hstep hrun, hw, hc⟩
    | false =>
      rw [filter_cons_of_pos (by rw [hr]; rfl)]
      obtain ⟨stop, c1, hcall, hw, hc⟩ := callFunc_looks h r 0 hcpos
      have hstep : leafStep func i r c s = some (.ok (stopFlags stop, r, c1), s) := by
        rw [leafStep, if_neg fun he => ?_, hcall]
        rw [isEmptyExtent, he.2] at hr
        cases hr
      cases stop with
      | true => exact ⟨true, c1, iterateRecs_stop hstep, hw.stopped _ _ _ rfl, hc⟩
      | false =>
        obtain ⟨stop, c2, hrun, hw', hc'⟩ := hrest c1 (hc ▸ hcpos)
        exact ⟨stop, c2, iterateRecs_go hstep hrun, hw.trans hw', hc'.trans hc⟩

variable (fs mode) in
theorem extentIterateEl_leaf_looks (hord : Ordered 0 lo hi el ks) (hcpos : c.lastEbCpos ≤ hi') :
    ∃ stop c', extentIterateEl fs mode func 0 el c s = some (.ok (stopFlags stop, el, c'), s) ∧
      WalkedTo look (visits mode 0 el ks) [] hi' c stop c' ∧ c'.lastEbCpos = c.lastEbCpos := by
  obtain ⟨stop, c', hrun, hw, hc⟩ := iterateRecs_leaf_looks h el.live 0 c (fun _ _ _ => rfl)
    hord.2.2.2.1 hcpos
  refine ⟨stop, c', ?_, hw, hc⟩
  rw [extentIterateEl, bind_ok hrun]
  show some (Except.ok (stopFlags stop, finishEl 0 (stopFlags stop).changed el el.live, _), s) = _
  rw [finishEl_live_eq]

theorem walksList_zero : WalksList fs mode func look s 0 := by
  intro lo hi el ks c hord _ _ hcpos
  obtain ⟨stop, c', hrun, hw, -⟩ := extentIterateEl_leaf_looks fs mode h hord
    (le_trans hcpos hord.le)
  exact ⟨stop, c', hrun, hw⟩

variable (mode) in
/-- A block and what hangs below it: the call before it, the walk of its list, the call
    after it. The walk may be stopped at each of them. -/
theorem extentIterateEb_looks
    {iterateEl : ExtentList → ExtentContext κ → M (IterFlags × ExtentList × ExtentContext κ)}
    (hlead : Leads s.dev.ebs d r k) (hdepth : k.eb.hList.lTreeDepth = d)
    (hle : k.eb.hList.lNextFreeRec ≤ k.eb.hList.lCount) (hrange : outOfRange fs r.eBlkno = false)
    (hcpos : c.lastEbCpos ≤ lo) (hlo : lo ≤ hi)
    (hel : ∀ c : ExtentContext κ, c.lastEbCpos ≤ lo → ∃ stop c', iterateEl k.eb.hList c s =
        some (.ok (stopFlags stop, k.eb.hList, c'), s) ∧ WalkedTo look cs bs hi c stop c') :
    ∃ stop c', extentIterateEb fs mode func d iterateEl r c s =
        some (.ok (stopFlags stop, r, c'), s) ∧
      WalkedTo look (callAt false mode r (d + 1) ++ cs ++ callAt true mode r (d + 1)) bs hi c
        stop c' := by
  obtain ⟨b1, c1, hbefore, hw1, hc1⟩ := callBefore_looks mode h r (d + 1) hcpos
  cases b1 with
  | true =>
    refine ⟨true, c1, ?_, append_assoc .. ▸ hw1.stopped _ _ _ rfl⟩
    rw [extentIterateEb, bind_ok hbefore]
    show (if _ then _ else _ : M _) s = _
    rw [if_pos (.inr rfl)]
    rfl
  | false =>
    have hblk : ¬ (r.eBlkno = 0 ∨ (stopFlags false).abort = true) := by
      rintro (h0 | h0)
      · rw [h0, outOfRange_zero] at hrange
        cases hrange
      · cases h0
    have hok : ¬ (k.eb.hList.lTreeDepth ≠ d ∨ k.eb.hBlkno ≠ r.eBlkno) := by
      rintro (hne | hne)
      · exact hne hdepth
      · exact hne hlead.blkno
    obtain ⟨b2, c2, hlist, hw2⟩ := hel { c1 with errcode := none } (hc1 ▸ hcpos)
    have hrun : extentIterateEb fs mode func d iterateEl r c s =
        callAfter mode func (stopFlags b2) r (d + 1) c2 s := by
      rw [extentIterateEb, bind_ok hbefore]
      show (if _ then _ else _ : M _) s = _
      rw [if_neg hblk, if_neg (by rw [hrange]; decide),
        bind_ok (attempt_run (readExtentBlock_ok hrange hlead.eb hle))]
      show (if _ then _ else _ : M _) s = _
      rw [if_neg hok, bind_ok hlist]
      rfl
    rw [hrun]
    have hw : WalkedTo look (callAt false mode r (d + 1) ++ cs) bs hi c b2 c2 :=
      (WalkedTo.mk hw1.calls hw1.last (fun _ => hc1 ▸ le_trans hcpos hlo) :
        WalkedTo look _ [] hi c false { c1 with errcode := none }).trans hw2
    cases b2 with
    | true => exact ⟨true, c2, callAfter_stopped r (d + 1) c2, hw.stopped _ _ _ rfl⟩
    | false =>
      obtain ⟨b3, c3, hafter, hw3, -⟩ := callAfter_looks mode h r (d + 1) (hw2.cpos rfl)
      exact ⟨b3, c3, hafter, append_nil bs ▸ hw.trans hw3⟩

theorem nodeStep_looks (ih : WalksList fs mode func look s d)
    (hlead : Leads s.dev.ebs d r k) (hord : Ordered d r.eCpos hi k.eb.hList k.kids)
    (hrange : ∀ b ∈ nodeBlocks d k, outOfRange fs b = false) (hcpos : c.lastEbCpos ≤ r.eCpos) :
    ∃ stop c', nodeStep fs mode func d (extentIterateEl fs mode func d) r c s =
        some (.ok (stopFlags stop, r, c'), s) ∧
      WalkedTo look (callAt false mode r (d + 1) ++ visits mode d k.eb.hList k.kids ++
        callAt true mode r (d + 1)) (notedAt d r k) hi c stop c' := by
  have hblk : outOfRange fs r.eBlkno = false := by
    rw [← hlead.blkno]
    exact hrange _ mem_cons_self
  cases d with
  | zero =>
    -- a leaf notes nothing itself, so the record is not behind what was noted
    obtain ⟨stop, c', hrun, hw⟩ := extentIterateEb_looks mode h hlead hord.depth
      hord.le_count hblk hcpos (le_refl _) fun c hc => by
        obtain ⟨stop, c', hrun, hw, -⟩ := extentIterateEl_leaf_looks fs mode h hord hc
        exact ⟨stop, c', hrun, hw⟩
    refine ⟨stop, _, ?_, hw.noteEb_one hord.le⟩
    rw [nodeStep, bind_ok hrun]
    rfl
  | succ d =>
    obtain ⟨stop, c', hrun, hw⟩ := extentIterateEb_looks mode h hlead hord.depth
      hord.le_count hblk hcpos hord.le fun c hc => ih r.eCpos hi _ _ c hord hlead.kids
        (fun b hb => hrange b (mem_cons_of_mem _ hb)) hc
    refine ⟨stop, _, ?_, hw.noteEb_succ (d := d) hord.le⟩
    rw [nodeStep, bind_ok hrun]
    rfl

theorem iterateRecs_node_looks {d : Nat}
    (ih : WalksList fs mode func look s d) : ∀ {rs ks lo hi i c},
    InOrder (fun lo hi k => Ordered d lo hi k.eb.hList k.kids) lo hi rs ks →
    List.Forall₂ (Leads s.dev.ebs d) rs ks →
    (∀ b ∈ ks.flatMap (nodeBlocks d), outOfRange fs b = false) → c.lastEbCpos ≤ lo →
    ∃ stop c', iterateRecs (fun _ => nodeStep fs mode func d (extentIterateEl fs mode func d)) i rs
        IterFlags.nothing c s = some (.ok (stopFlags stop, rs, c'), s) ∧
      WalkedTo look ((rs.zip ks).flatMap fun p => callAt false mode p.1 (d + 1) ++
          visits mode d p.2.eb.hList p.2.kids ++ callAt true mode p.1 (d + 1))
        ((rs.zip ks).flatMap fun p => notedAt d p.1 p.2) hi c stop c'
  | [], [], lo, hi, _, c, hin, _, _, hlo => ⟨false, c, rfl, walkedTo_calls rfl (le_trans hlo hin)⟩
  | r :: rs, k :: ks, lo, hi, i, c, hin, hleads, hrange, hlo => by
    obtain ⟨hlead, hleads⟩ := forall₂_cons.mp hleads
    obtain ⟨stop, c1, hstep, hw⟩ := nodeStep_looks h ih hlead hin.2.1
      (fun b hb => hrange b (mem_append_left _ hb)) (le_trans hlo hin.1)
    cases stop with
    | true => exact ⟨true, c1, iterateRecs_stop hstep, hw.stopped _ _ _ rfl⟩
    | false =>
      obtain ⟨stop, c2, hrest, hw'⟩ := iterateRecs_node_looks ih hin.2.2 hleads
        (fun b hb => hrange b (mem_append_right _ hb)) (hw.cpos rfl)
      exact ⟨stop, c2, iterateRecs_go hstep hrest, hw.trans hw'⟩

theorem walksList_succ (ih : WalksList fs mode func look s d) :
    WalksList fs mode func look s (d + 1) := by
  intro lo hi el ks c hord hread hrange hlo
  have hleads := readKids_succ.mp hread
  obtain ⟨stop, c', hrun, hw⟩ := iterateRecs_node_looks h ih hord.2.2.2 hleads hrange hlo
  refine ⟨stop, c', ?_, ?_⟩
  · rw [extentIterateEl, bind_ok hrun]
    show some (Except.ok (stopFlags stop,
      finishEl (d + 1) (stopFlags stop).changed el el.live, _), s) = _
    rw [finishEl_live_eq]
  · rw [notedBlks_succ d el ks hleads.length_eq]
    exact hw

variable (fs mode) in
theorem walksList : ∀ d, WalksList fs mode func look s d
  | 0 => walksList_zero h
  | d + 1 => walksList_succ h (walksList d)

end Walk

/-! ### Which leaf is noted last -/

/-- The record that leads to the last leaf, if there is one, has clusters. -/
def LastLeafMapped (d : Nat) (el : ExtentList) (ks : List Node) : Prop :=
  ∀ r ∈ (leafPointers d el ks).getLast?, r.eIntClusters ≠ 0

instance (d : Nat) (el : ExtentList) (ks : List Node) : Decidable (LastLeafMapped d el ks) :=
  inferInstanceAs (Decidable (∀ r ∈ (leafPointers d el ks).getLast?, r.eIntClusters ≠ 0))

theorem leafPointers_blks : ∀ {d el ks}, readKids ebs d el = some ks →
    (leafPointers d el ks).map eBlkno = (treeLeaves d ks).map ExtentBlock.hBlkno
  | 0, _, _, _ => rfl
  | 1, el, ks, h => by
    have hf := readKids_succ.mp h
    rw [leafPointers]
    clear h
    generalize el.live = rs at hf
    induction hf with
    | nil => rfl
    | cons hl _ ih => rw [map_cons, ih, ← hl.blkno]; rfl
  | d + 2, el, ks, h => by
    have hf := readKids_succ.mp h
    simp only [leafPointers, treeLeaves, map_flatMap]
    refine flatMap_congr fun k hk => ?_
    obtain ⟨r, -, hl⟩ := forall₂_mem_right hf k hk
    exact leafPointers_blks hl.kids

theorem treeLeaves_sublist : ∀ d ks,
    ((treeLeaves d ks).map ExtentBlock.hBlkno).Sublist (treeBlocks d ks)
  | 0, _ => .slnil
  | 1, ks => by
    induction ks with
    | nil => exact .slnil
    | cons k ks ih => exact .cons_cons _ ih
  | d + 2, ks => by
    rw [treeLeaves, map_flatMap]
    induction ks with
    | nil => exact .slnil
    | cons k ks ih => exact ((treeLeaves_sublist (d + 1) k.kids).cons _).append ih

theorem getLastD_filter_iff {keep : ExtentRec → Bool} (hnd : (rs.map eBlkno).Nodup)
    (h0 : 0 ∉ rs.map eBlkno) :
    ((rs.filter keep).map eBlkno).getLastD 0 = (rs.map eBlkno).getLastD 0 ↔
      ∀ r ∈ rs.getLast?, keep r = true := by
  rcases eq_nil_or_concat' rs with rfl | ⟨init, r, rfl⟩
  · simp
  · cases hr : keep r with
    | true => simp [filter_append, hr]
    | false =>
      rw [map_append, nodup_append] at hnd
      have hne : ((init.filter keep).map eBlkno).getLastD 0 ≠ r.eBlkno := by
        intro he
        cases hlast : ((init.filter keep).map eBlkno).getLast? with
        | none =>
          rw [getLastD_eq_getLast?, hlast] at he
          exact h0 (by simp [← he])
        | some b =>
          rw [getLastD_eq_getLast?, hlast] at he
          obtain ⟨x, hx, hxb⟩ := mem_map.mp (mem_of_getLast? hlast)
          exact hnd.2.2 b (mem_map.mpr ⟨x, (mem_filter.mp hx).1, hxb⟩) r.eBlkno (by simp) he
      simpa [hr] using hne

theorem noted_last_iff (hread : readKids ebs d el = some ks) (hnd : (treeBlocks d ks).Nodup)
    (hrange : ∀ b ∈ treeBlocks d ks, outOfRange fs b = false) :
    (notedBlks d el ks).getLastD 0 = lastLeafBlk (treeLeaves d ks) ↔ LastLeafMapped d el ks := by
  have hsub := treeLeaves_sublist d ks
  rw [← leafPointers_blks hread] at hsub
  have h0 : 0 ∉ (leafPointers d el ks).map eBlkno := by
    intro h
    have := hrange 0 (hsub.subset h)
    cases this
  have hlast : lastLeafBlk (treeLeaves d ks) = ((leafPointers d el ks).map eBlkno).getLastD 0 := by
    rw [leafPointers_blks hread, lastLeafBlk, getLastD_eq_getLast?, getLast?_map]
    cases (treeLeaves d ks).getLast? <;> rfl
  rw [hlast, notedBlks, getLastD_filter_iff (hsub.nodup hnd) h0]
  simp only [LastLeafMapped, decide_eq_true_eq]

/-! ### The cluster count -/

section Count

variable (func : ExtentRec → Nat → Nat → κ → κ)

/-- A callback that gets the cluster count too, and its count kept with the caller's data:
    `extent_iterate_el` adds the clusters of a leaf record after the call on it. -/
def counted (r : ExtentRec) (d : Nat) (p : Nat × κ) :
    Bool × Nat × κ :=
  (false, if d = 0 then addW 32 p.1 r.eLeafClusters else p.1, func r d p.1 p.2)

def countedFunc : ExtentFunc (Nat × κ) := fun r d p =>
  pure (IterFlags.nothing, r, (counted func r d p).2)

theorem countedFunc_looks (s : St) : Looks (countedFunc func) (counted func) s := fun _ _ _ => rfl

def leafVisits (cs : List (ExtentRec × Nat)) : List ExtentRec :=
  (cs.filter fun c => c.2 == 0).map Prod.fst

def clustersOf (cs : List (ExtentRec × Nat)) : Nat :=
  ((leafVisits cs).map eLeafClusters).sum

/-- The caller's data after the calls `cs`, each with the clusters of the leaf records called
    on before it, `ccount` of them before the first. -/
def countCalls : Nat → κ → List (ExtentRec × Nat) → κ
  | _, p, [] => p
  | ccount, p, c :: cs => countCalls (ccount + clustersOf [c]) (func c.1 c.2 ccount p) cs

theorem clustersOf_append (cs cs' : List (ExtentRec × Nat)) :
    clustersOf (cs ++ cs') = clustersOf cs + clustersOf cs' := by
  simp [clustersOf, leafVisits]

theorem lookAll_counted : ∀ cs ccount p, ccount + clustersOf cs < 2 ^ 32 →
      lookAll (counted func) (ccount, p) cs =
        (false, ccount + clustersOf cs, countCalls func ccount p cs)
  | [], _, _, _ => rfl
  | (r, d) :: cs, ccount, p, hlt => by
    have hcons : clustersOf ((r, d) :: cs) = clustersOf [(r, d)] + clustersOf cs :=
      clustersOf_append [(r, d)] cs
    rw [hcons, ← Nat.add_assoc] at hlt ⊢
    have hstep : counted func r d (ccount, p) =
        (false, ccount + clustersOf [(r, d)], func r d ccount p) := by
      by_cases hd : d = 0
      · have hone : clustersOf [(r, d)] = r.eLeafClusters := by simp [clustersOf, leafVisits, hd]
        rw [hone] at hlt ⊢
        rw [counted, if_pos hd, addW_eq (by omega)]
      · have hone : clustersOf [(r, d)] = 0 := by simp [clustersOf, leafVisits, hd]
        rw [hone, counted, if_neg hd]
        rfl
    exact (foldStop_cons_go hstep cs).trans (lookAll_counted cs _ _ hlt)

end Count

theorem leafVisits_visits : ∀ {d el ks},
    readKids ebs d el = some ks → leafVisits (visits mode d el ks) = treeRecs d el ks
  | 0, el, _, _ => by
    rw [leafVisits, visits, filter_eq_self.mpr (by simp), map_map]
    exact map_id _
  | d + 1, el, ks, h => by
    have hf := readKids_succ.mp h
    rw [visits, treeRecs]
    generalize el.live = rs at hf
    clear h
    induction hf with
    | nil => rfl
    | @cons r k rs ks hl _ ih =>
      have hcall : ∀ after, leafVisits (callAt after mode r (d + 1)) = [] := by
        intro after
        unfold callAt
        split <;> rfl
      have happ : ∀ cs cs', leafVisits (cs ++ cs') = leafVisits cs ++ leafVisits cs' := by
        simp [leafVisits]
      rw [zip_cons_cons, flatMap_cons, flatMap_cons, happ, happ, happ, ih, hcall,
        hcall, leafVisits_visits hl.kids, nil_append, append_nil]

/-! ### The whole function -/

/-- An extent tree the iterator can walk: readable, in order, its blocks distinct and chained,
    the last leaf named by the inode. Branches may be empty. -/
structure Iterable (fs : Filesys) (ebs : Nat → Option ExtentBlock) (di : Dinode) (ks : List Node) :
    Prop where
  read : readKids ebs di.iList.lTreeDepth di.iList = some ks
  order : Ordered di.iList.lTreeDepth 0 uint32Max di.iList ks
  nodup : (treeBlocks di.iList.lTreeDepth ks).Nodup
  range : ∀ b ∈ treeBlocks di.iList.lTreeDepth ks, outOfRange fs b = false
  chain : LeafChain (treeLeaves di.iList.lTreeDepth ks)
  last : di.iLastEbBlk = lastLeafBlk (treeLeaves di.iList.lTreeDepth ks)

theorem LeafChain.last_next : ∀ {leaves eb},
    LeafChain leaves → eb ∈ leaves.getLast? → eb.hNextLeafBlk = 0
  | [_], _, h, he => by
    cases he
    exact h
  | _ :: b :: rest, _, h, he => h.2.last_next (by rwa [getLast?_cons_cons] at he)

theorem InOrder.kid : ∀ {rs ks lo hi}, InOrder P lo hi rs ks → ∀ k ∈ ks, ∃ lo' hi', P lo' hi' k
  | [], [], _, _, _, _, hk => by cases hk
  | _ :: _, k :: ks, _, _, h, k', hk => by
    rcases mem_cons.mp hk with rfl | hk
    · exact ⟨_, _, h.2.1⟩
    · exact InOrder.kid h.2.2 k' hk

theorem Ordered.shaped : ∀ {d lo hi el ks}, Ordered d lo hi el ks → Shaped d el ks
  | 0, _, _, _, _, h => ⟨h.1, h.2.1, h.2.2.1⟩
  | _ + 1, _, _, _, _, h => by
    refine ⟨h.1, h.2.1, h.2.2.1, fun k hk => ?_⟩
    obtain ⟨lo, hi, hord⟩ := h.2.2.2.kid k hk
    exact Ordered.shaped hord

theorem Iterable.last_leaf (h : Iterable fs ebs di ks) (hd : di.iList.lTreeDepth ≠ 0) :
    ∃ eb, ebs di.iLastEbBlk = some eb ∧ eb.hNextLeafBlk = 0 ∧
      eb.hList.lNextFreeRec ≤ eb.hList.lCount ∧ outOfRange fs di.iLastEbBlk = false := by
  obtain ⟨d, hd⟩ := Nat.exists_eq_succ_of_ne_zero hd
  obtain ⟨hread, hord, -, hrange, hchain, hlast⟩ := h
  have hshape := hord.shaped
  rw [hd] at hread hshape hlast hrange hchain
  have hne := hshape.treeLeaves_ne hread
  have hget := getLast?_eq_some_getLast hne
  have hmem := getLast_mem hne
  obtain ⟨heb, hblk⟩ := readKids_leaf hread _ hmem
  rw [lastLeafBlk, hget] at hlast
  rw [hlast]
  exact ⟨_, heb, hchain.last_next hget, hshape.leaf_le _ hmem, hrange _ hblk⟩

theorem endLeafChain_ended (h : Iterable fs s.dev.ebs di ks) :
    endLeafChain fs di s = some (.ok (), s) := by
  rw [endLeafChain]
  split
  · rfl
  · rename_i hd
    obtain ⟨eb, heb, hnext, hle, hrange⟩ := h.last_leaf hd
    rw [bind_ok (readExtentBlock_ok hrange heb hle), if_neg (not_not_intro hnext)]
    rfl

/-- `ocfs2_extent_iterate_inode` with a callback that only looks: it returns 0 with the inode
    buffer and the device as they were, and has called the callback once for each record, on
    the leaf records in the order of their clusters, with the clusters before each. -/
structure OnlyVisits (fs : Filesys) (mode : IterMode) (func : ExtentRec → Nat → Nat → κ → κ)
    (di : Dinode) (ks : List Node) (p : κ) (s : St) : Prop where
  run : extentIterateInode fs mode (countedFunc func) di (0, p) s =
    some (.ok (di, clustersOf (visits mode di.iList.lTreeDepth di.iList ks),
      countCalls func 0 p (visits mode di.iList.lTreeDepth di.iList ks)), s)
  leaves : leafVisits (visits mode di.iList.lTreeDepth di.iList ks) =
    treeRecs di.iList.lTreeDepth di.iList ks
  order : Spaced eCpos eLeafClusters 0 (treeRecs di.iList.lTreeDepth di.iList ks) uint32Max

variable {func : ExtentFunc κ}

theorem extentIterateInode_looked {ctxt : ExtentContext κ} (hwalk : Walkable di)
    (hrun : extentIterateEl fs mode func di.iList.lTreeDepth di.iList ⟨none, 0, 0, p⟩ s =
      some (.ok (stopFlags stop, di.iList, ctxt), s)) : extentIterateInode fs mode func di p s =
      (if stop = false ∧ ctxt.lastEbBlkno ≠ di.iLastEbBlk then do
        writeInode fs { di with iLastEbBlk := ctxt.lastEbBlkno }
        endLeafChain fs { di with iLastEbBlk := ctxt.lastEbBlkno }
        pure ({ di with iLastEbBlk := ctxt.lastEbBlkno }, ctxt.privData)
      else do
        endLeafChain fs di
        pure (di, ctxt.privData) : M _) s := by
  rw [extentIterateInode, if_neg (by rw [hwalk.valid]; decide),
    if_neg (by rw [hwalk.plain]; decide), if_neg (by rw [hwalk.extents]; decide),
    bind_ok hrun]
  cases stop with
  | true => simp [stopFlags]
  | false =>
    by_cases hne : ctxt.lastEbBlkno = di.iLastEbBlk
    · simp [stopFlags, hne]
    · simp [stopFlags, hne]

/-- What `ocfs2_extent_iterate_inode` does with a callback that only looks: it makes its calls
    until it is stopped, and nothing else, unless it gets to the end and the last leaf has no
    clusters. Then the inode comes back with another last leaf. -/
structure IteratesTo (fs : Filesys) (mode : IterMode) (func : ExtentFunc κ) (look : Look κ)
    (di : Dinode) (ks : List Node) (p : κ) (s : St) (stop : Bool) (p' : κ) : Prop where
  calls : lookAll look p (visits mode di.iList.lTreeDepth di.iList ks) = (stop, p')
  quiet : stop = true ∨ LastLeafMapped di.iList.lTreeDepth di.iList ks →
    extentIterateInode fs mode func di p s = some (.ok (di, p'), s)
  moved : stop = false → ¬ LastLeafMapped di.iList.lTreeDepth di.iList ks →
    ∀ di' q t, extentIterateInode fs mode func di p s = some (.ok (di', q), t) →
      q = p' ∧ di'.iLastEbBlk ≠ di.iLastEbBlk

variable {look : Look κ}

variable (mode) in
theorem Iterable.iterates (h : Iterable fs s.dev.ebs di ks) (hlook : Looks func look s)
    (hwalk : Walkable di) (p : κ) : ∃ stop p', IteratesTo fs mode func look di ks p s stop p' := by
  obtain ⟨stop, ctxt, hrun, hw⟩ := walksList fs mode hlook
    di.iList.lTreeDepth 0 uint32Max di.iList ks ⟨none, 0, 0, p⟩ h.order h.read h.range
    (le_refl _)
  have hlast : stop = false →
      (ctxt.lastEbBlkno = di.iLastEbBlk ↔ LastLeafMapped di.iList.lTreeDepth di.iList ks) := by
    intro hs
    rw [hw.last hs, h.last]
    exact noted_last_iff h.read h.nodup h.range
  refine ⟨stop, ctxt.privData, hw.calls, fun hq => ?_, fun hs hm di' q t hr => ?_⟩
  · have hno : ¬ (stop = false ∧ ctxt.lastEbBlkno ≠ di.iLastEbBlk) := by
      rintro ⟨hs, hne⟩
      rcases hq with hq | hq
      · rw [hs] at hq
        cases hq
      · exact hne ((hlast hs).mpr hq)
    rw [extentIterateInode_looked hwalk hrun, if_neg hno]
    exact bind_ok (endLeafChain_ended h) _
  · have hne : ctxt.lastEbBlkno ≠ di.iLastEbBlk := fun he => hm ((hlast hs).mp he)
    rw [extentIterateInode_looked hwalk hrun, if_pos ⟨hs, hne⟩] at hr
    obtain ⟨_, u, -, hr⟩ := bind_eq_ok hr
    obtain ⟨_, v, -, hr⟩ := bind_eq_ok hr
    cases hr
    exact ⟨rfl, hne⟩

theorem IteratesTo.priv {di' : Dinode} {p' q : κ} {t : St}
    (h : IteratesTo fs mode func look di ks p s stop p')
    (hrun : extentIterateInode fs mode func di p s = some (.ok (di', q), t)) : q = p' := by
  by_cases hq : stop = true ∨ LastLeafMapped di.iList.lTreeDepth di.iList ks
  · rw [h.quiet hq] at hrun
    cases hrun
    rfl
  · rw [not_or, Bool.not_eq_true] at hq
    exact (h.moved hq.1 hq.2 _ _ _ hrun).1

theorem Iterable.iterates_counted (h : Iterable fs s.dev.ebs di ks) (hwalk : Walkable di)
    (func : ExtentRec → Nat → Nat → κ → κ) (p : κ) :
    IteratesTo fs mode (countedFunc func) (counted func) di ks (0, p) s false
      (clustersOf (visits mode di.iList.lTreeDepth di.iList ks),
        countCalls func 0 p (visits mode di.iList.lTreeDepth di.iList ks)) := by
  have hlt : 0 + clustersOf (visits mode di.iList.lTreeDepth di.iList ks) < 2 ^ 32 := by
    rw [clustersOf, leafVisits_visits h.read]
    exact lt_of_le_of_lt h.order.recs_spaced.sum_le (by decide)
  obtain ⟨stop, p', hi⟩ := h.iterates mode (countedFunc_looks func s) hwalk (0, p)
  have hcalls := hi.calls
  rw [lookAll_counted func _ 0 p hlt, Nat.zero_add] at hcalls
  cases hcalls
  exact hi

theorem onlyVisits_of_lastLeafMapped (func : ExtentRec → Nat → Nat → κ → κ) (p : κ)
    (hwalk : Walkable di) (h : Iterable fs s.dev.ebs di ks)
    (hm : LastLeafMapped di.iList.lTreeDepth di.iList ks) : OnlyVisits fs mode func di ks p s :=
  ⟨(h.iterates_counted hwalk func p).quiet (.inr hm), leafVisits_visits h.read, h.order.recs_spaced⟩

theorem OnlyVisits.lastLeafMapped {func : ExtentRec → Nat → Nat → κ → κ}
    (hv : OnlyVisits fs mode func di ks p s) (hwalk : Walkable di)
      (h : Iterable fs s.dev.ebs di ks) :
    LastLeafMapped di.iList.lTreeDepth di.iList ks := by
  by_contra hm
  exact ((h.iterates_counted hwalk func p).moved rfl hm _ _ _ hv.run).2 rfl

theorem WfRoot.iterable (h : WfRoot fs di ks)
    (hread : readKids ebs di.iList.lTreeDepth di.iList = some ks) : Iterable fs ebs di ks := by
  refine ⟨hread, ?_, h.nodup, h.range, h.chain, h.last⟩
  by_cases hd : di.iList.lTreeDepth = 0
  · rw [hd] at hread ⊢
    cases hread
    exact (h.leaf hd).ordered
  · exact (h.node hd).ordered

theorem mem_leafPointers : ∀ {d el ks r},
    NoEmptyBranch d el ks → r ∈ leafPointers d el ks → r.eIntClusters ≠ 0
  | 1, _, _, r, h, hr => h.1 r hr
  | d + 2, _, _, r, h, hr => by
    obtain ⟨k, hk, hr⟩ := mem_flatMap.mp hr
    exact mem_leafPointers (h.2 k hk) hr

theorem WfRoot.lastLeafMapped (h : WfRoot fs di ks) :
    LastLeafMapped di.iList.lTreeDepth di.iList ks := by
  intro r hr
  by_cases hd : di.iList.lTreeDepth = 0
  · rw [hd] at hr
    cases hr
  · exact mem_leafPointers (h.node hd).shaped.2 (mem_of_getLast? hr)

theorem WfRoot.onlyVisits (h : WfRoot fs di ks)
    (hread : readKids s.dev.ebs di.iList.lTreeDepth di.iList = some ks) (hwalk : Walkable di)
    (func : ExtentRec → Nat → Nat → κ → κ) (p : κ) : OnlyVisits fs mode func di ks p s :=
  onlyVisits_of_lastLeafMapped func p hwalk (h.iterable hread) h.lastLeafMapped

/-- On a tree in order the iterator only visits exactly if the record that leads to the last
    leaf has clusters. If it has none, as for a branch just added, the walk ends on an earlier
    leaf, and the inode is written with that one as its last. -/
theorem extentIterateInode_onlyVisits_iff {di : Dinode} {ks : List Node}
    (func : ExtentRec → Nat → Nat → κ → κ) (p : κ) (hwalk : Walkable di)
    (h : Iterable fs s.dev.ebs di ks) :
    OnlyVisits fs mode func di ks p s ↔ LastLeafMapped di.iList.lTreeDepth di.iList ks :=
  ⟨fun hv => hv.lastLeafMapped hwalk h, onlyVisits_of_lastLeafMapped func p hwalk h⟩

theorem extentIterateInode_onlyVisits_two :
    OnlyVisits smallFs ⟨false, false⟩ (fun r d n cs => cs ++ [(r.eCpos, d, n)]) twoLeafInode
      (twoLeaves.map (Node.mk · [])) [] (smallSt twoLeaves twoLeafInode []) :=
  (extentIterateInode_onlyVisits_iff _ _ ⟨by decide, by decide, by decide⟩
    ⟨rfl, by decide, by decide, by decide, by decide, rfl⟩).mpr (by decide)

/-- With the empty leaf behind the others the inode buffer comes back with another last leaf,
    and the device has been written. -/
theorem extentIterateInode_added_branch :
    (Walkable addedInode ∧ Iterable smallFs (ebsOf addedLeaves) addedInode
      (addedLeaves.map (Node.mk · []))) ∧
    ∃ di n t, extentIterateInode smallFs ⟨false, false⟩ (countedFunc fun _ _ _ _ => ()) addedInode
        (0, ()) (smallSt addedLeaves addedInode []) = some (.ok (di, n, ()), t) ∧
      di.iLastEbBlk = 11 ∧ addedInode.iLastEbBlk = 12 ∧
      (t.dev.ebs 11).map ExtentBlock.hNextLeafBlk = some 0 ∧ t.history.length = 2 := by
  refine ⟨⟨⟨by decide, by decide, by decide⟩, rfl, by decide, by decide, by decide, by decide, rfl⟩,
    ?_⟩
  exact ⟨_, _, _, rfl, rfl, rfl, rfl, rfl⟩

end Ocfs2Tools
