import Ocfs2Tools.Xattr.Iterate

/-!
# Stopping an iteration over extended attributes

What the iterator will do is laid out by the inode alone: a list of groups of calls, one for
each header it reads, and the way it ends when nobody stops it. A request to stop is heeded
at once inside a group, but it ends the iteration only in a group that is the last of its
kind: the inode body, a plain block, or the last bucket of an extent. The code it then
returns is that of the last read, which succeeded.
-/

namespace Ocfs2Tools.Xattr

open List Prog

variable {κ : Type} {fs : Filesys} {xd : XattrDev} {func : XattrFunc κ} {s : St}
  {f : XattrFlags} {xb : XattrBlock} {nameHash : Nat} {t : St}

/-! ### The plan of an iteration -/

/-- The calls for the entries of one header; `last` says that a stop request in it ends the
    iteration. -/
structure Group where
  calls : List XattrCall
  last : Bool
deriving DecidableEq, Repr

/-- How an iteration ends that nobody stops, other than with 0. -/
inductive Ending where
  | failed (e : Errcode)
  | aborted
deriving DecidableEq, Repr

structure Plan where
  groups : List Group
  ending : Option Ending
deriving DecidableEq, Repr

/-- One plan after the other, if the first does not end the iteration. -/
def Plan.andThen (a b : Plan) : Plan :=
  match a.ending with
  | some e => ⟨a.groups, some e⟩
  | none => ⟨a.groups ++ b.groups, b.ending⟩

variable (fs xd)

def headerCalls (blkno : Nat) (inBucket : Bool) (xh : XattrHeader) :
    List XattrCall :=
  xh.xhEntries.zipIdx.map fun x => callFor fs blkno inBucket x.2 x.1

def bucketPlan (fs : Filesys) (xd : XattrDev) : Nat → Nat → Plan
  | 0, _ => ⟨[], none⟩
  | n + 1, blkno =>
    match xd.bucket blkno with
    | .error e => ⟨[], some (.failed e)⟩
    | .ok xh => Plan.andThen ⟨[⟨headerCalls fs blkno true xh, n == 0⟩], none⟩
        (bucketPlan fs xd n (blkno + blocksPerBucket fs))

def extentPlan (r : ExtentRec) : Plan :=
  if (r.eLeafClusters * bucketsPerCluster fs) % 2 ^ 32 = 0 then ⟨[], none⟩
  else
    match xd.bucket r.eBlkno with
    | .error e => ⟨[], some (.failed e)⟩
    | .ok xh => Plan.andThen ⟨[⟨headerCalls fs r.eBlkno true xh, xh.xhNumBuckets - 1 == 0⟩], none⟩
        (bucketPlan fs xd (xh.xhNumBuckets - 1) (r.eBlkno + blocksPerBucket fs))

/-- The extents found by looking up `nameHash` and then below each record found. -/
def indexPlan (fs : Filesys) (xd : XattrDev) (s : St) (xb : XattrBlock) : Nat → Nat → Plan
  | 0, _ => ⟨[], some .aborted⟩
  | n + 1, nameHash =>
    if nameHash = 0 then ⟨[], none⟩
    else
      match xattrGetRec fs xb nameHash s with
      | none => ⟨[], some .aborted⟩
      | some (.error e, _) => ⟨[], some (.failed e)⟩
      | some (.ok r, _) => Plan.andThen (extentPlan fs xd r)
          (if r.eCpos = 0 then ⟨[], none⟩ else indexPlan fs xd s xb n (r.eCpos - 1))

def blockPlan (s : St) (di : XattrInode) : Plan :=
  if di.iXattrLoc = 0 then ⟨[], none⟩
  else
    match readXattrBlock fs xd di.iXattrLoc with
    | .error e => ⟨[], some (.failed e)⟩
    | .ok (.plain xh) => ⟨[⟨headerCalls fs di.iXattrLoc false xh, true⟩], none⟩
    | .ok (.indexed el) =>
      if el.lNextFreeRec = 0 then ⟨[], none⟩
      else indexPlan fs xd s (.indexed el) (uint32Max + 1) uint32Max

def bodyPlan (di : XattrInode) : Plan :=
  if di.inlineXattrFl then ⟨[⟨headerCalls fs di.iBlkno false di.ibody, true⟩], none⟩
  else ⟨[], none⟩

/-- What the iterator does on an inode, as far as the callback lets it. -/
def xattrPlan (s : St) (di : XattrInode) : Plan :=
  if xd.supported = false ∨ di.hasXattrFl = false then ⟨[], none⟩
  else (bodyPlan fs di).andThen (blockPlan fs xd s di)

/-! ### Running a plan -/

variable {fs xd}

/-- The calls of one group: they end with the first one that asks to stop. -/
def runCalls (func : XattrFunc κ) : List XattrCall → κ → XattrFlags × κ
  | [], p => (.nothing, p)
  | c :: cs, p => if (func c p).1.stops then func c p else runCalls func cs (func c p).2

/-- The groups one after the other, until a call in a last one asks to stop. -/
def runGroups (func : XattrFunc κ) : List Group → κ → XattrFlags × κ
  | [], p => (.nothing, p)
  | g :: gs, p =>
    if (runCalls func g.calls p).1.stops = true ∧ g.last = true then runCalls func g.calls p
    else runGroups func gs (runCalls func g.calls p).2

/-- How an iteration that nobody stopped leaves the flags and the error code. -/
def Ended : Option Ending → XattrFlags → Option Errcode → Prop
  | none, f, c => f = .nothing ∧ c = none
  | some (.failed e), f, c => f.error = true ∧ c = some e
  | some .aborted, _, _ => False

/-- `out` is what a function of the iterator returns that runs `plan`. -/
structure Runs (func : XattrFunc κ) (plan : Plan) (p : κ) (out : XattrFlags × XattrCtxt κ) :
    Prop where
  priv : out.2.privData = (runGroups func plan.groups p).2
  stopped : (runGroups func plan.groups p).1.stops = true →
    out.1 = (runGroups func plan.groups p).1 ∧ out.2.errcode = none
  ended : (runGroups func plan.groups p).1.stops = false → Ended plan.ending out.1 out.2.errcode

theorem flags_of_not_stops (h : f.stops = false) : f = .nothing := by
  obtain ⟨a, e⟩ := f
  simp only [XattrFlags.stops, Bool.or_eq_false_iff] at h
  rw [h.1, h.2]
  rfl

theorem stops_of_error (h : f.error = true) : f.stops = true := by
  simp [XattrFlags.stops, h]

theorem runGroups_append (gs hs : List Group) (p : κ) : runGroups func (gs ++ hs) p =
    if (runGroups func gs p).1.stops = true then runGroups func gs p
    else runGroups func hs (runGroups func gs p).2 := by
  induction gs generalizing p with
  | nil => rfl
  | cons g gs ih =>
    by_cases h : (runCalls func g.calls p).1.stops = true ∧ g.last = true
    · have hstop : ∀ gs, runGroups func (g :: gs) p = runCalls func g.calls p :=
        fun gs => by rw [runGroups, if_pos h]
      simp only [cons_append, hstop, h.1, if_true]
    · have hgo : ∀ gs, runGroups func (g :: gs) p = runGroups func gs (runCalls func g.calls p).2 :=
        fun gs => by rw [runGroups, if_neg h]
      simp only [cons_append, hgo, ih]

variable {a b : Plan} {p q : κ} {out : XattrFlags × XattrCtxt κ}

theorem Runs.of_eq (h : Runs func b q out)
    (hrun : runGroups func a.groups p = runGroups func b.groups q) (hend : a.ending = b.ending) :
    Runs func a p out :=
  ⟨hrun ▸ h.priv, hrun ▸ h.stopped, by rw [hrun, hend]; exact h.ended⟩

theorem Plan.andThen_eq (b : Plan) (h : a.ending = none) :
    a.andThen b = ⟨a.groups ++ b.groups, b.ending⟩ := by
  rw [Plan.andThen, h]

/-- A function that does not ask to stop went through its plan. -/
theorem Runs.through (ha : Runs func a p out) (hs : out.1.stops = false) : a.ending = none ∧
    out.2.errcode = none ∧
      ∀ gs, runGroups func (a.groups ++ gs) p = runGroups func gs out.2.privData := by
  have hgo : (runGroups func a.groups p).1.stops = false := by
    by_contra hn
    have hn : (runGroups func a.groups p).1.stops = true := by simpa using hn
    rw [(ha.stopped hn).1, hn] at hs
    cases hs
  match a.ending, ha.ended hgo with
  | none, hend =>
    exact ⟨rfl, hend.2, fun gs => by rw [runGroups_append, if_neg (by simp [hgo]), ha.priv]⟩
  | some (.failed e), hend =>
    rw [stops_of_error hend.1] at hs
    cases hs

theorem Runs.andThen_stop (ha : Runs func a p out) (hs : out.1.stops = true) :
    Runs func (a.andThen b) p out := by
  obtain ⟨gs, ending⟩ := a
  cases ending with
  | some e => exact ha
  | none =>
    have hstop : (runGroups func gs p).1.stops = true := by
      by_contra hn
      rw [(ha.ended (by simpa using hn)).1] at hs
      cases hs
    have hrun : runGroups func (gs ++ b.groups) p = runGroups func gs p := by
      rw [runGroups_append, if_pos hstop]
    constructor
    · simpa only [Plan.andThen, hrun] using ha.priv
    · simpa only [Plan.andThen, hrun] using ha.stopped
    · intro h
      simp only [Plan.andThen, hrun, hstop] at h
      cases h

/-! ### The functions run their plans -/

theorem entriesLoop_eq (blkno : Nat) (inBucket : Bool) : ∀ xes i p,
    entriesLoop fs func blkno inBucket i xes .nothing p =
      runCalls func ((xes.zipIdx i).map fun x => callFor fs blkno inBucket x.2 x.1) p
  | [], _, _ => rfl
  | xe :: xes, i, p => by
    simp only [entriesLoop, zipIdx_cons, map_cons, runCalls]
    by_cases h : (func (callFor fs blkno inBucket i xe) p).1.stops = true
    · rw [if_pos h, if_pos h]
    · have hnot : (func (callFor fs blkno inBucket i xe) p).1 = .nothing :=
        flags_of_not_stops (by simpa using h)
      rw [hnot]
      exact entriesLoop_eq blkno inBucket xes (i + 1) _

theorem xattrIterateEntries_eq (blkno : Nat) (xh : XattrHeader) (inBucket : Bool)
    (ctxt : XattrCtxt κ) : xattrIterateEntries fs func blkno xh inBucket ctxt =
      ((runCalls func (headerCalls fs blkno inBucket xh) ctxt.privData).1, { ctxt with
          privData := (runCalls func (headerCalls fs blkno inBucket xh) ctxt.privData).2 }) := by
  simp only [xattrIterateEntries, entriesLoop_eq, headerCalls]

theorem runs_header (cs : List XattrCall) (p : κ) :
    Runs func ⟨[⟨cs, true⟩], none⟩ p ((runCalls func cs p).1, ⟨none, (runCalls func cs p).2⟩) := by
  by_cases h : (runCalls func cs p).1.stops = true
  · have hrun : runGroups func [⟨cs, true⟩] p = runCalls func cs p := by simp [runGroups, h]
    refine ⟨by rw [hrun], fun _ => ⟨by rw [hrun], rfl⟩, fun hn => ?_⟩
    rw [hrun, h] at hn
    cases hn
  · have hrun : runGroups func [⟨cs, true⟩] p = (.nothing, (runCalls func cs p).2) := by
      simp [runGroups, h]
    refine ⟨by rw [hrun], fun hn => ?_, fun _ => ⟨flags_of_not_stops (by simpa using h), rfl⟩⟩
    rw [hrun] at hn
    cases hn

theorem runs_nothing (p : κ) : Runs func ⟨[], none⟩ p (.nothing, ⟨none, p⟩) :=
  ⟨rfl, (fun h => nomatch h), fun _ => ⟨rfl, rfl⟩⟩

theorem runs_failed (p : κ) (e : Errcode) (iret : XattrFlags) :
    Runs func ⟨[], some (.failed e)⟩ p (noteError (iret, ⟨some e, p⟩)) :=
  ⟨rfl, (fun h => nomatch h), fun _ => ⟨rfl, rfl⟩⟩

theorem noteError_none (iret : XattrFlags) (p : κ) :
    noteError (iret, (⟨none, p⟩ : XattrCtxt κ)) = (iret, ⟨none, p⟩) := rfl

variable {plan : Plan}

/-- A bucket with others behind it: what its calls return is lost. -/
theorem Runs.behind {cs : List XattrCall} (h : Runs func plan (runCalls func cs p).2 out) :
    Runs func (Plan.andThen ⟨[⟨cs, false⟩], none⟩ plan) p out := by
  exact h.of_eq (by simp [Plan.andThen, runGroups]) rfl

theorem bucketLoop_runs (n blkno iret p) :
    Runs func (bucketPlan fs xd (n + 1) blkno) p (noteError (bucketLoop fs xd func (n + 1) blkno
      iret ⟨none, p⟩)) := by
  induction n generalizing blkno iret p with
  | zero =>
    simp only [bucketPlan, bucketLoop]
    cases hb : xd.bucket blkno with
    | error e => exact runs_failed p e iret
    | ok xh =>
      simp only [xattrIterateEntries_eq, noteError_none]
      exact runs_header _ p
  | succ n ih =>
    rw [bucketPlan, bucketLoop]
    cases hb : xd.bucket blkno with
    | error e => exact runs_failed p e iret
    | ok xh =>
      simp only [xattrIterateEntries_eq]
      exact Runs.behind (ih _ _ _)

variable (fs xd func) in
theorem xattrIterateBucket_runs (r : ExtentRec) (p : κ) : Runs func (extentPlan fs xd r) p
    (xattrIterateBucket fs xd func r.eBlkno r.eLeafClusters ⟨none, p⟩) := by
  unfold extentPlan xattrIterateBucket
  split
  · exact runs_nothing p
  · cases hb : xd.bucket r.eBlkno with
    | error e => exact runs_failed p e _
    | ok xh =>
      simp only [xattrIterateEntries_eq]
      cases hn : xh.xhNumBuckets - 1 with
      | zero => exact runs_header _ p
      | succ n => exact Runs.behind (bucketLoop_runs n _ _ _)

/-- `out` is how a function ends that runs `plan` in state `s`. -/
inductive Performs (func : XattrFunc κ) (plan : Plan) (p : κ) (s : St) :
    Option (Except Errcode (XattrFlags × XattrCtxt κ) × St) → Prop where
  | returns {out : XattrFlags × XattrCtxt κ} (h : Runs func plan p out) :
      Performs func plan p s (some (.ok out, s))
  | aborts (he : plan.ending = some .aborted)
      (hs : (runGroups func plan.groups p).1.stops = false) : Performs func plan p s none

theorem Runs.noteError_eq (h : Runs func plan p out) : noteError out = out := by
  obtain ⟨f, c, p'⟩ := out
  cases c with
  | none => rfl
  | some e =>
    have hend : Ended plan.ending f (some e) := by
      apply h.ended
      by_contra hn
      have := (h.stopped (by simpa using hn)).2
      cases this
    have herr : f.error = true := by
      match hp : plan.ending, hend with
      | none, hend => cases hend.2
      | some (.failed e'), hend => exact hend.1
    obtain ⟨a, e'⟩ := f
    cases herr
    rfl

theorem Performs.noteError {m : M (XattrFlags × XattrCtxt κ)} (h : Performs func plan p s (m s)) :
    Performs func plan p s ((do let r ← m; pure (noteError r)) s) := by
  generalize hx : m s = x at h
  cases h with
  | returns h =>
    rw [bind_ok hx, h.noteError_eq]
    exact .returns h
  | aborts he hs =>
    rw [bind_abort hx]
    exact .aborts he hs

theorem Performs.andThen {m : M (XattrFlags × XattrCtxt κ)} (ha : Runs func a p out)
    (hs : out.1.stops = false)
    (hb : Performs func b out.2.privData s (m s)) : Performs func (a.andThen b) p s (m s) := by
  obtain ⟨hend, -, hrun⟩ := ha.through hs
  rw [Plan.andThen_eq b hend]
  generalize m s = x at hb
  cases hb with
  | returns hb => exact .returns (hb.of_eq (hrun _) rfl)
  | aborts he hn => exact .aborts he (by rw [hrun]; exact hn)

theorem leafRec_keeps {I : St → Prop} (el : ExtentList) (nameHash : Nat) :
    Prog.Keeps I (leafRec el nameHash) := by
  unfold leafRec
  split
  · exact keeps_ite (keeps_fail _) (keeps_pure _)
  · exact keeps_fail _

theorem xattrGetRec_state {r : Except Errcode ExtentRec}
    (h : xattrGetRec fs xb nameHash s = some (r, t)) : t = s := by
  have hk : Prog.Keeps (· = s) (xattrGetRec fs xb nameHash) := by
    cases xb with
    | plain xh => exact keeps_fail _
    | indexed el =>
      refine keeps_ite (leafRec_keeps _ _) ?_
      refine keeps_bind (treeFindLeaf_keeps fs el nameHash) fun eb => ?_
      exact keeps_ite (leafRec_keeps _ _) (keeps_fail _)
  exact hk s r t rfl h

theorem xattrGetRec_le {r : ExtentRec} (h : xattrGetRec fs xb nameHash s = some (.ok r, t)) :
    r.eCpos ≤ nameHash := by
  have hleaf : ∀ {el s t}, leafRec el nameHash s = some (.ok r, t) → r.eCpos ≤ nameHash := by
    intro el s t h
    cases hf : el.live.reverse.find? fun r => decide (r.eCpos ≤ nameHash) with
    | none =>
      simp only [leafRec, hf] at h
      cases h
    | some r' =>
      simp only [leafRec, hf] at h
      split at h
      · cases h
      · cases h
        simpa using find?_some hf
  cases xb with
  | plain xh => cases h
  | indexed el =>
    simp only [xattrGetRec] at h
    split at h
    · exact hleaf h
    · obtain ⟨eb, u, -, h⟩ := bind_eq_ok h
      split at h
      · exact hleaf h
      · cases h

theorem indexLoop_performs (xb : XattrBlock) : ∀ n nameHash p, nameHash < n →
    Performs func (indexPlan fs xd s xb n nameHash) p s
      ((do let r ← indexLoop fs xd func xb n nameHash .nothing ⟨none, p⟩; pure (noteError r))
        s) := by
  intro n
  induction n with
  | zero => omega
  | succ n ih =>
    intro nameHash p hlt
    rw [indexPlan, indexLoop]
    split
    · exact .returns (runs_nothing p)
    match hg : xattrGetRec fs xb nameHash s with
    | none =>
      have hatt : attempt (xattrGetRec fs xb nameHash) s = none := by
        simp only [attempt, hg]
      rw [bind_bind, bind_abort hatt]
      exact .aborts rfl rfl
    | some (.error e, t) =>
      obtain rfl := xattrGetRec_state hg
      rw [bind_bind, bind_ok (attempt_run hg)]
      exact .returns (runs_failed p e .nothing)
    | some (.ok r, t) =>
      obtain rfl := xattrGetRec_state hg
      have hle := xattrGetRec_le hg
      rw [bind_bind, bind_ok (attempt_run hg)]
      have hext := xattrIterateBucket_runs fs xd func r p
      generalize hout : xattrIterateBucket fs xd func r.eBlkno r.eLeafClusters ⟨none, p⟩ =
        out at hext
      obtain ⟨iret, c, p'⟩ := out
      simp only [hout]
      by_cases hs : iret.stops = true
      · rw [if_pos hs, bind_ok (pure_run _ _), hext.noteError_eq]
        exact .returns (hext.andThen_stop hs)
      · have hs : iret.stops = false := by simpa using hs
        obtain rfl : c = none := (hext.through hs).2.1
        obtain rfl := flags_of_not_stops hs
        refine Performs.andThen hext hs ?_
        split
        · exact .returns (runs_nothing p')
        · exact ih (r.eCpos - 1) p' (by omega)

theorem xattrIterateBlock_performs (di : XattrInode) (p : κ) :
    Performs func (blockPlan fs xd s di) p s (xattrIterateBlock fs xd func di ⟨none, p⟩ s) := by
  unfold blockPlan xattrIterateBlock
  split
  · exact .returns (runs_nothing p)
  match readXattrBlock fs xd di.iXattrLoc with
  | .error e => exact .returns (runs_failed p e .nothing)
  | .ok (.plain xh) =>
    simp only [xattrIterateEntries_eq, noteError_none]
    exact .returns (runs_header _ p)
  | .ok (.indexed el) =>
    apply Performs.noteError
    unfold xattrIterateIndexBlock
    by_cases hn : el.lNextFreeRec = 0
    · simp only [if_pos hn]
      exact .returns (runs_nothing p)
    · simp only [if_neg hn]
      exact indexLoop_performs (.indexed el) _ _ p (Nat.lt_succ_self _)

/-- What an iteration returns that nobody stops. -/
def Ending.result : Option Ending → κ → Option (Except Errcode Unit × κ)
  | none, p => some (.ok (), p)
  | some (.failed e), p => some (.error e, p)
  | some .aborted, _ => none

/-- What an iteration returns: a stop request that ends it makes it return 0. -/
def Plan.outcome (plan : Plan) (func : XattrFunc κ) (p : κ) : Option (Except Errcode Unit × κ) :=
  if (runGroups func plan.groups p).1.stops = true then
    some (.ok (), (runGroups func plan.groups p).2)
  else Ending.result plan.ending (runGroups func plan.groups p).2

theorem Runs.outcome_eq (h : Runs func plan p out) : plan.outcome func p =
      some (match out.1.error, out.2.errcode with
        | true, some e => (.error e, out.2.privData)
        | _, _ => (.ok (), out.2.privData)) := by
  unfold Plan.outcome
  rw [← h.priv]
  split
  · next hs =>
    rw [(h.stopped hs).2]
    cases out.1.error <;> rfl
  · next hs =>
    have hend := h.ended (by simpa using hs)
    match hp : plan.ending, hend with
    | none, hend =>
      rw [hend.2]
      cases out.1.error <;> rfl
    | some (.failed e), hend =>
      rw [hend.1, hend.2]
      rfl

variable (fs func) in
theorem xattrIterateIbody_runs (di : XattrInode) (p : κ) :
    Runs func (bodyPlan fs di) p (xattrIterateIbody fs func di ⟨none, p⟩) := by
  unfold bodyPlan xattrIterateIbody
  split
  · rw [xattrIterateEntries_eq]
    exact runs_header _ p
  · exact runs_nothing p

variable (fs xd func s) in
theorem bodyThenBlock_performs (di : XattrInode) (p : κ) :
    Performs func ((bodyPlan fs di).andThen (blockPlan fs xd s di)) p s
      (bodyThenBlock fs xd func di ⟨none, p⟩ s) := by
  have hbody := xattrIterateIbody_runs fs func di p
  unfold bodyThenBlock
  generalize xattrIterateIbody fs func di ⟨none, p⟩ = out at hbody
  obtain ⟨iret, c, p'⟩ := out
  by_cases hs : iret.stops = true
  · rw [if_pos hs]
    exact .returns (hbody.andThen_stop hs)
  · rw [if_neg hs]
    have hs : iret.stops = false := by simpa using hs
    obtain rfl : c = none := (hbody.through hs).2.1
    exact Performs.andThen hbody hs (xattrIterateBlock_performs di p')

variable (fs xd func s) in
/-- **`ocfs2_xattr_iterate` runs its plan.** -/
theorem xattrIterate_eq (di : XattrInode) (p : κ) : xattrIterate fs xd func di p s =
    ((xattrPlan fs xd s di).outcome func p).map fun r => (.ok r, s) := by
  unfold xattrIterate xattrPlan
  split
  · rfl
  have hperf := bodyThenBlock_performs fs xd func s di p
  generalize hx : bodyThenBlock fs xd func di ⟨none, p⟩ s = x at hperf
  cases hperf with
  | @returns out hrun =>
    rw [bind_ok hx, hrun.outcome_eq]
    obtain ⟨⟨a, e⟩, c, p'⟩ := out
    cases e <;> cases c <;> rfl
  | aborts he hn =>
    rw [bind_abort hx, Plan.outcome, if_neg (by simp [hn]), he]
    rfl

/-! ### Callbacks that ask to stop -/

def logged (func : XattrFunc κ) : XattrFunc (κ × List XattrFlags) := fun c p =>
  ((func c p.1).1, (func c p.1).2, p.2 ++ [(func c p.1).1])

/-- A callback is not called again after it asked to stop, and if it returned an error so
    does the iteration. -/
def Heeds (fs : Filesys) (xd : XattrDev) (func : XattrFunc κ) (di : XattrInode) (p : κ) (s : St) :
    Prop :=
  ∀ r p' log t, xattrIterate fs xd (logged func) di (p, []) s = some (.ok (r, p', log), t) →
    (∀ f ∈ log.dropLast, f.stops = false) ∧ ((∃ f ∈ log, f.error = true) → r ≠ .ok ())

/-- The first stop request of the callback comes where the iterator heeds it: with
    `OCFS2_XATTR_ABORT` alone in a last group, or in a group behind which there are no more
    entries; an error then needs a read that fails behind it. -/
def StopsInTime (func : XattrFunc κ) (ending : Option Ending) : List Group → κ → Prop
  | [], _ => True
  | g :: gs, p =>
    if (runCalls func g.calls p).1.stops = true then
      if g.last = true then (runCalls func g.calls p).1.error = false
      else (∀ h ∈ gs, h.calls = []) ∧ ((runCalls func g.calls p).1.error = true → ending ≠ none)
    else StopsInTime func ending gs (runCalls func g.calls p).2

variable (func) in
theorem runCalls_logged (cs : List XattrCall) (p : κ) (log : List XattrFlags) : ∃ k more,
    runCalls (logged func) cs (p, log) =
      ((runCalls func cs p).1, (runCalls func cs p).2, log ++ more) ∧
    (cs ≠ [] → more ≠ []) ∧ more = List.replicate k .nothing ++
      if (runCalls func cs p).1.stops = true then [(runCalls func cs p).1] else [] := by
  induction cs generalizing p log with
  | nil => exact ⟨0, [], by simp [runCalls], by simp, rfl⟩
  | cons c cs ih =>
    by_cases h : (func c p).1.stops = true
    · have hcall : runCalls func (c :: cs) p = func c p := by rw [runCalls, if_pos h]
      have hlog : runCalls (logged func) (c :: cs) (p, log) = logged func c (p, log) := by
        rw [runCalls, if_pos (show (logged func c (p, log)).1.stops = true from h)]
      refine ⟨0, [(func c p).1], ?_, by simp, ?_⟩
      · rw [hlog, hcall]
        rfl
      · rw [hcall, if_pos h]
        rfl
    · have hcall : runCalls func (c :: cs) p = runCalls func cs (func c p).2 := by
        rw [runCalls, if_neg h]
      have hlog : runCalls (logged func) (c :: cs) (p, log) =
          runCalls (logged func) cs ((func c p).2, log ++ [(func c p).1]) := by
        rw [runCalls, if_neg (show ¬ (logged func c (p, log)).1.stops = true from h)]
        rfl
      obtain ⟨k, more, hrun, -, hmore⟩ := ih (func c p).2 (log ++ [(func c p).1])
      have hnot : (func c p).1 = .nothing := flags_of_not_stops (by simpa using h)
      refine ⟨k + 1, .nothing :: more, ?_, by simp, ?_⟩
      · rw [hlog, hcall, hrun, hnot, append_assoc]
        rfl
      · rw [hcall, hmore]
        rfl

variable (func) in
theorem runGroups_logged (gs : List Group) (p : κ) (log : List XattrFlags) : ∃ more,
    runGroups (logged func) gs (p, log) =
      ((runGroups func gs p).1, (runGroups func gs p).2, log ++ more) ∧
    (more = [] → ∀ g ∈ gs, g.calls = []) := by
  induction gs generalizing p log with
  | nil => exact ⟨[], by simp [runGroups], by simp⟩
  | cons g gs ih =>
    obtain ⟨k, more, hrun, hne, -⟩ := runCalls_logged func g.calls p log
    by_cases h : (runCalls func g.calls p).1.stops = true ∧ g.last = true
    · refine ⟨more, by simp only [runGroups, hrun, h, and_self, if_true], fun hnil => ?_⟩
      -- a group without calls asks for nothing
      have hg : g.calls = [] := by
        by_contra hc
        exact hne hc hnil
      rw [hg] at h
      cases h.1
    · obtain ⟨more', hrun', hne'⟩ := ih (runCalls func g.calls p).2 (log ++ more)
      refine ⟨more ++ more', ?_, fun hnil => ?_⟩
      · rw [runGroups, runGroups, if_neg h, hrun, if_neg h, hrun', append_assoc]
      · obtain ⟨h1, h2⟩ := append_eq_nil_iff.mp hnil
        exact forall_mem_cons.mpr ⟨by_contra fun hc => hne hc h1, hne' h2⟩

variable {gs : List Group}

theorem runGroups_empty (h : ∀ g ∈ gs, g.calls = []) (p : κ) :
    runGroups func gs p = (.nothing, p) := by
  induction gs with
  | nil => rfl
  | cons g gs ih =>
    have hg : runCalls func g.calls p = (.nothing, p) := by rw [h g (by simp)]; rfl
    rw [runGroups, hg]
    exact ih fun g' hg' => h g' (by simp [hg'])

/-- A record as it should be: nothing after a request to stop, and no error if the
    iteration returns 0. -/
def Fine (zero : Bool) (log : List XattrFlags) : Prop :=
  (∀ f ∈ log.dropLast, f.stops = false) ∧ (zero = true → ∀ f ∈ log, f.error = false)

theorem fine_replicate (zero : Bool) (k : Nat) : Fine zero (List.replicate k .nothing) := by
  rw [Fine, dropLast_replicate]
  exact ⟨forall_mem_replicate.mpr (.inr rfl), fun _ => forall_mem_replicate.mpr (.inr rfl)⟩

theorem fine_concat (zero : Bool) (k : Nat) (f : XattrFlags) :
    Fine zero (List.replicate k .nothing ++ [f]) ↔ (zero = true → f.error = false) := by
  rw [Fine, dropLast_concat]
  refine ⟨fun h hz => h.2 hz f (by simp), fun h =>
    ⟨forall_mem_replicate.mpr (.inr rfl), fun hz => ?_⟩⟩
  exact forall_mem_append.mpr ⟨forall_mem_replicate.mpr (.inr rfl), forall_mem_singleton.mpr (h hz)⟩

theorem fine_after_stop {k : Nat} {ending : Option Ending} (hf : f.stops = true)
    {out : XattrFlags × κ × List XattrFlags}
    (hout : runGroups (logged func) gs (p, List.replicate k .nothing ++ [f]) = out) :
    Fine (out.1.stops || ending.isNone) out.2.2 ↔
      (∀ g ∈ gs, g.calls = []) ∧ (f.error = true → ending ≠ none) := by
  by_cases h : ∀ g ∈ gs, g.calls = []
  · rw [runGroups_empty h] at hout
    subst hout
    rw [fine_concat]
    have hzero : (XattrFlags.nothing.stops || ending.isNone) = true ↔ ending = none := by
      cases ending <;> simp [XattrFlags.stops, XattrFlags.nothing]
    simp only [hzero]
    constructor
    · intro he
      refine ⟨h, fun hfe hn => ?_⟩
      rw [he hn] at hfe
      cases hfe
    · rintro ⟨-, he⟩ hn
      by_contra hc
      exact he (by simpa using hc) hn
  · obtain ⟨more, hrun, hne⟩ := runGroups_logged func gs p (List.replicate k .nothing ++ [f])
    rw [hrun] at hout
    subst hout
    constructor
    · rintro ⟨hd, -⟩
      have hmore : more ≠ [] := fun hnil => h (hne hnil)
      have hmem : f ∈ (List.replicate k XattrFlags.nothing ++ [f] ++ more).dropLast := by
        rw [dropLast_append_of_ne_nil hmore]
        simp
      rw [hd f hmem] at hf
      cases hf
    · rintro ⟨hall, -⟩
      exact absurd hall h

variable (func) in
/-- The record of a run is fine exactly when the callback stops in time. -/
theorem fine_iff_stopsInTime (ending : Option Ending) (gs : List Group) :
    ∀ (p : κ) (k : Nat) (out : XattrFlags × κ × List XattrFlags),
      runGroups (logged func) gs (p, List.replicate k .nothing) = out →
      (Fine (out.1.stops || ending.isNone) out.2.2 ↔ StopsInTime func ending gs p) := by
  induction gs with
  | nil =>
    rintro p k out rfl
    exact ⟨fun _ => trivial, fun _ => fine_replicate _ k⟩
  | cons g gs ih =>
    intro p k out hout
    obtain ⟨m, more, hrun, -, hmore⟩ :=
      runCalls_logged func g.calls p (List.replicate k .nothing)
    rw [runGroups, hrun] at hout
    rw [StopsInTime]
    by_cases hs : (runCalls func g.calls p).1.stops = true
    · rw [if_pos hs] at hmore ⊢
      have hlog : List.replicate k XattrFlags.nothing ++ more =
          List.replicate (k + m) .nothing ++ [(runCalls func g.calls p).1] := by
        rw [hmore, ← append_assoc, replicate_append_replicate]
      rw [hlog] at hout
      by_cases hl : g.last = true
      · rw [if_pos ⟨hs, hl⟩] at hout
        subst hout
        rw [if_pos hl, fine_concat, hs]
        simp
      · rw [if_neg fun hc => hl hc.2] at hout
        rw [if_neg hl]
        exact fine_after_stop hs hout
    · rw [if_neg hs] at hmore ⊢
      rw [if_neg fun hc => hs hc.1, hmore, append_nil, replicate_append_replicate] at hout
      exact ih _ (k + m) out hout

/-- The search of an index tree runs into an assertion before the callback could stop the
    iteration: it never returns. -/
def AbortsUnstopped (func : XattrFunc κ) (plan : Plan) (p : κ) : Prop :=
  plan.ending = some .aborted ∧ (runGroups func plan.groups p).1.stops = false

theorem heeds_iff_fine {di : XattrInode} {p' : κ} {r : Except Errcode Unit} {log : List XattrFlags}
    (zero : Bool)
    (hrun : xattrIterate fs xd (logged func) di (p, []) s = some (.ok (r, p', log), s))
    (hz : r = .ok () ↔ zero = true) : Heeds fs xd func di p s ↔ Fine zero log := by
  constructor
  · intro h
    obtain ⟨hd, he⟩ := h r p' log s hrun
    refine ⟨hd, fun hzero f hf => ?_⟩
    by_contra hc
    exact he ⟨f, hf, by simpa using hc⟩ (hz.mpr hzero)
  · rintro ⟨hd, he⟩ r₁ p₁ log₁ t hrun₁
    rw [hrun] at hrun₁
    cases hrun₁
    refine ⟨hd, ?_⟩
    rintro ⟨f, hf, hfe⟩ hr
    rw [he (hz.mp hr) f hf] at hfe
    cases hfe

/-- **A stop request is heeded exactly when it comes in time.** -/
theorem xattrIterate_heeds_iff (fs : Filesys) (xd : XattrDev) (func : XattrFunc κ)
    (di : XattrInode) (p : κ) (s : St) : Heeds fs xd func di p s ↔
      StopsInTime func (xattrPlan fs xd s di).ending (xattrPlan fs xd s di).groups p ∨
        AbortsUnstopped func (xattrPlan fs xd s di) p := by
  obtain ⟨log, hlog, -⟩ := runGroups_logged func (xattrPlan fs xd s di).groups p []
  have hfine := fine_iff_stopsInTime func (xattrPlan fs xd s di).ending _ p 0 _ hlog
  have hrun := xattrIterate_eq fs xd (logged func) s di (p, [])
  rw [Plan.outcome, hlog] at hrun
  rw [← hfine]
  split at hrun
  · next hs =>
    rw [heeds_iff_fine true hrun (by simp)]
    simp [AbortsUnstopped, hs]
  · next hs =>
    have hs : (runGroups func (xattrPlan fs xd s di).groups p).1.stops = false := by simpa using hs
    cases he : (xattrPlan fs xd s di).ending with
    | none =>
      rw [he] at hrun
      rw [heeds_iff_fine true hrun (by simp)]
      simp [AbortsUnstopped, he]
    | some e =>
      rw [he] at hrun
      cases e with
      | failed e =>
        rw [heeds_iff_fine false hrun (by simp)]
        simp [AbortsUnstopped, he, hs]
      | aborted =>
        constructor
        · intro _
          exact .inr ⟨he, hs⟩
        · intro _ r p' log' t hrun'
          rw [hrun] at hrun'
          cases hrun'

/-- An index block with one extent of two clusters, which holds two buckets with one entry each. -/
def twoBuckets : XattrDev where
  supported := true
  block _ := .ok (.indexed ⟨0, 1, [⟨0, 2, 0, 0, 80⟩]⟩)
  bucket blkno := .ok ⟨2, [⟨blkno, 100, 4, 0, 8⟩]⟩

def indexInode : XattrInode := ⟨20, true, false, ⟨0, []⟩, 40⟩

def noEbsSt : St := smallSt [] (smallInode 0 ⟨0, 0, []⟩) []

def alwaysError : XattrFunc Unit := fun _ p => (⟨false, true⟩, p)

/-- Two buckets in one extent: the callback is called on both although it returns an error
    on the first, and the iteration returns 0. -/
theorem xattrIterate_two_buckets :
    xattrIterate smallFs twoBuckets (logged alwaysError) indexInode ((), []) noEbsSt =
      some (.ok (.ok (), (), [⟨false, true⟩, ⟨false, true⟩]), noEbsSt) ∧
    ¬ Heeds smallFs twoBuckets alwaysError indexInode () noEbsSt := by
  have hrun : xattrIterate smallFs twoBuckets (logged alwaysError) indexInode ((), []) noEbsSt =
      some (.ok (.ok (), (), [⟨false, true⟩, ⟨false, true⟩]), noEbsSt) := rfl
  refine ⟨hrun, fun h => ?_⟩
  have := (h _ _ _ _ hrun).1 ⟨false, true⟩ (by simp)
  cases this

end Ocfs2Tools.Xattr
