import Ocfs2Tools.Fsck.Pass3
import Ocfs2Tools.Lib.Lists

/-!
# One walk of pass 3

`Walk` describes one call of `connect_directory`: the directories it marks form a
chain from its start to a last one, which either joins what was marked before,
comes back to the start, or is moved to lost+found. `connectDirectory_run` shows
that this is what the code does; nothing later looks at the loop again.
-/

namespace Ocfs2Tools.Pass3

open List Relation Chain

variable {V : Nat → Prop}

/-! ### The way up -/

/-- The two directories a walk may end at. -/
def Ost.IsTop (s : Ost) (d : Nat) : Prop := d = s.rootBlkno ∨ d = s.sysdirBlkno

/-- Following `dp_dirent` until the root, the system directory or a directory without a parent. -/
def Ost.up (s : Ost) (d : Nat) : Option Nat :=
  if d = s.rootBlkno ∨ d = s.sysdirBlkno ∨ (s.node d).dirent = 0 then none
  else some (s.node d).dirent

/-- Following `dp_dirent` from `d` reaches the root or the system directory. -/
def Ost.Reaches (s : Ost) (d : Nat) : Prop := Ends s.up s.IsTop d

variable {s s0 s1 o : Ost} {env : Env} {d e k start dp : Nat}

theorem up_of_isTop (h : s.IsTop d) : s.up d = none := by
  unfold Ost.up
  rcases h with h | h <;> simp [h]

theorem up_eq_some : s.up d = some e ↔ ¬ s.IsTop d ∧ e ≠ 0 ∧ (s.node d).dirent = e := by
  unfold Ost.up Ost.IsTop
  constructor
  · intro h
    split at h
    · cases h
    · rename_i hn
      have he := Option.some.inj h
      subst he
      refine ⟨fun ht => hn ?_, fun hz => hn (.inr (.inr hz)), rfl⟩
      exact ht.elim .inl (fun h => .inr (.inl h))
  · rintro ⟨ht, he, rfl⟩
    rw [if_neg]
    rintro (h | h | h)
    · exact ht (.inl h)
    · exact ht (.inr h)
    · exact he h

/-- What pass 3 never changes. -/
structure SameDirs (s s' : Ost) : Prop where
  inos : s'.inos = s.inos
  root : s'.rootBlkno = s.rootBlkno
  sysdir : s'.sysdirBlkno = s.sysdirBlkno
  lostfound : s'.lostfoundIno = s.lostfoundIno

theorem SameDirs.trans {s s' s'' : Ost} (h : SameDirs s s') (h' : SameDirs s' s'') :
    SameDirs s s'' :=
  ⟨h'.inos.trans h.inos, h'.root.trans h.root, h'.sysdir.trans h.sysdir,
    h'.lostfound.trans h.lostfound⟩

theorem SameDirs.isTop (h : SameDirs s s1) : s1.IsTop d ↔ s.IsTop d := by
  unfold Ost.IsTop
  rw [h.root, h.sysdir]

theorem SameDirs.up (h : SameDirs s s1) (hd : (s1.node d).dirent = (s.node d).dirent) :
    s1.up d = s.up d := by
  unfold Ost.up
  rw [h.root, h.sysdir, hd]

@[simp] theorem alter_node (s : Ost) (d x : Nat) (f : DirParent → DirParent) :
    (s.alter d f).node x = if x = d then f (s.node x) else s.node x := rfl

@[simp] theorem alter_loopNo (s : Ost) (d : Nat) (f : DirParent → DirParent) :
    (s.alter d f).loopNo = s.loopNo := rfl

@[simp] theorem icountDelta_node (s : Ost) (d : Nat)
    (n : Int) : (s.icountDelta d n).node = s.node := rfl

/-! ### One walk -/

/-- One step of a walk from a directory in `V`. -/
def Inside (s : Ost) (V : Nat → Prop) (a b : Nat) : Prop := V a ∧ s.up a = some b

/-- A walk from `start` has marked `V` and is about to look at `dp`. -/
structure Walking (s0 s : Ost) (start dp : Nat) (V : Nat → Prop) : Prop where
  same : SameDirs s0 s
  loopNo : s.loopNo = s0.loopNo
  dirent : ∀ x, (s.node x).dirent = (s0.node x).dirent
  connected : ∀ x, (s.node x).connected = true ↔ (s0.node x).connected = true ∨ V x
  fresh : ∀ x, V x → x ∈ s0.inos ∧ (s0.node x).connected = false
  fromStart : ∀ x, V x ∨ x = dp → ReflTransGen (Inside s0 V) start x
  toLast : ∀ x, V x → ReflTransGen (Inside s0 V) x dp
  mem : dp ∈ s0.inos
  stamps : ∀ x, (s.node x).loopNo ≤ s.loopNo
  stamped : ((∀ x, ¬ V x) ∧ dp = start ∧ ∀ x, (s.node x).loopNo ≠ s0.loopNo) ∨
    (V start ∧ ∀ x, (s.node x).loopNo = s0.loopNo ↔ x = dp ∨ V x ∧ x ≠ start)

/-- A whole walk: it marked `V` and then, last, `k`. -/
structure Walk (s0 s1 : Ost) (start k : Nat) (V : Nat → Prop) : Prop where
  same : SameDirs s0 s1
  loopNo : s1.loopNo = s0.loopNo
  connected : ∀ x, (s1.node x).connected = true ↔ (s0.node x).connected = true ∨ V x ∨ x = k
  fresh : ∀ x, V x ∨ x = k → x ∈ s0.inos ∧ (s0.node x).connected = false
  not_mem : ¬ V k
  fromStart : ∀ x, V x ∨ x = k → ReflTransGen (Inside s0 V) start x
  toLast : ∀ x, V x → ReflTransGen (Inside s0 V) x k
  stamps : ∀ x, (s1.node x).loopNo ≤ s1.loopNo
  stop : ((∀ x, (s1.node x).dirent = (s0.node x).dirent) ∧
      ∃ e, s0.up k = some e ∧ ((s0.node e).connected = true ∨ e = start)) ∨
    ((∀ x, (s1.node x).dirent = if x = k then s0.lostfoundIno else (s0.node x).dirent) ∧
      (s0.up k = none ∨ ∃ e, s0.up k = some e ∧ (V e ∨ e = k) ∧ e ≠ start))

/-- The environment of the pass: every question is answered yes and linking a
    recorded directory into lost+found succeeds. -/
structure Willing (env : Env) (inos : List Nat) : Prop where
  yes : ∀ p d, env.prompt p d = true
  links : ∀ d ∈ inos, env.isDir d = some true ∧ env.linkFails d = false

theorem reconnectFile_eq (henv : Willing env s.inos) (hd : d ∈ s.inos) (hlf : s.lostfoundIno ≠ 0) :
    reconnectFile env d s =
      (s.icountDelta d 1).alter d fun dp => { dp with dirent := s.lostfoundIno } := by
  obtain ⟨hdir, hlink⟩ := henv.links d hd
  unfold reconnectFile Ost.lostfound
  have hlook : ((s.icountDelta d 1).lookup d).isSome = true := by
    unfold Ost.lookup
    rw [if_pos (show d ∈ (s.icountDelta d 1).inos from hd)]
    rfl
  simp only [if_neg hlf, hdir, hlink, Bool.true_and]
  rw [if_neg (by simp), if_pos hlook]

def Ost.unmarked (s : Ost) : Nat := s.inos.countP fun d => !(s.node d).connected

theorem unmarked_mark_lt (hd : d ∈ s.inos) (h : (s.node d).connected = false) :
    (s.mark d).unmarked < s.unmarked := by
  apply countP_lt
  · intro b _ hb
    simp only [Ost.mark, alter_node] at hb
    split at hb
    · simp at hb
    · exact hb
  · exact hd
  · simp [h]
  · simp [Ost.mark]

def Ost.moveOn (s : Ost) (dp e : Nat) : Ost := (s.mark dp).stamp e

theorem moveOn_connected (x : Nat) :
    ((s.moveOn dp e).node x).connected = true ↔ (s.node x).connected = true ∨ x = dp := by
  simp only [Ost.moveOn, Ost.stamp, Ost.mark, alter_node]
  split_ifs <;> simp_all

theorem moveOn_dirent (x : Nat) : ((s.moveOn dp e).node x).dirent = (s.node x).dirent := by
  simp only [Ost.moveOn, Ost.stamp, Ost.mark, alter_node]
  split_ifs <;> simp_all

theorem moveOn_loopNo (x : Nat) :
    ((s.moveOn dp e).node x).loopNo = if x = e then s.loopNo else (s.node x).loopNo := by
  simp only [Ost.moveOn, Ost.stamp, Ost.mark, alter_node]
  split_ifs <;> simp_all

theorem Walking.moveOn_stamps (h : Walking s0 s start dp V) (x : Nat) :
    ((s.moveOn dp e).node x).loopNo ≤ (s.moveOn dp e).loopNo := by
  rw [moveOn_loopNo]
  split
  · exact le_refl _
  · exact h.stamps x

namespace Walking

variable (h : Walking s0 s start dp V) (hdp : (s.node dp).connected = false)

include h hdp

theorem not_mem : ¬ V dp := by
  intro hV
  rw [(h.connected dp).mpr (.inr hV)] at hdp
  cases hdp

theorem unconnected : (s0.node dp).connected = false := by
  rw [Bool.eq_false_iff] at hdp ⊢
  exact fun h0 => hdp ((h.connected dp).mpr (.inl h0))

theorem stop (hsame : SameDirs s s1) (hloop : s1.loopNo = s.loopNo)
    (hconn : ∀ x, (s1.node x).connected = true ↔ (s.node x).connected = true ∨ x = dp)
    (hstamps : ∀ x, (s1.node x).loopNo ≤ s1.loopNo)
    (hstop : ((∀ x, (s1.node x).dirent = (s0.node x).dirent) ∧
        ∃ e, s0.up dp = some e ∧ ((s0.node e).connected = true ∨ e = start)) ∨
      ((∀ x, (s1.node x).dirent = if x = dp then s0.lostfoundIno else (s0.node x).dirent) ∧
        (s0.up dp = none ∨ ∃ e, s0.up dp = some e ∧ (V e ∨ e = dp) ∧ e ≠ start))) :
    Walk s0 s1 start dp V where
  same := h.same.trans hsame
  loopNo := hloop.trans h.loopNo
  connected := by
    intro x
    rw [hconn, h.connected, or_assoc]
  fresh := by
    rintro x (hx | rfl)
    · exact h.fresh x hx
    · exact ⟨h.mem, h.unconnected hdp⟩
  not_mem := h.not_mem hdp
  fromStart := h.fromStart
  toLast := h.toLast
  stamps := hstamps
  stop := hstop

theorem graft (henv : Willing env s0.inos) (hlf : s0.lostfoundIno ≠ 0)
    (hup : s0.up dp = none ∨ ∃ e, s0.up dp = some e ∧ (V e ∨ e = dp) ∧ e ≠ start) :
    Walk s0 (reconnectFile env dp (s.mark dp)) start dp V := by
  have hin : (s.mark dp).inos = s0.inos := h.same.inos
  have hlf' : (s.mark dp).lostfoundIno = s0.lostfoundIno := h.same.lostfound
  rw [reconnectFile_eq (hin ▸ henv) (hin ▸ h.mem) (hlf' ▸ hlf)]
  refine h.stop hdp ⟨rfl, rfl, rfl, rfl⟩ rfl ?_ ?_ (.inr ⟨?_, hup⟩)
  · intro x
    simp only [Ost.mark, alter_node, icountDelta_node]
    by_cases hx : x = dp <;> simp [hx]
  · intro x
    simp only [Ost.mark, alter_node, icountDelta_node]
    have := h.stamps x
    by_cases hx : x = dp <;> simpa [hx, Ost.icountDelta] using this
  · intro x
    simp only [Ost.mark, alter_node, icountDelta_node]
    split_ifs
    · exact hlf'
    · exact h.dirent x

/-- Going on to a parent that is marked already ends a walk: the parent was marked
    before, or it is the start, the only directory of this walk without a stamp. -/
theorem join (hup : s0.up dp = some e) (hstamp : (s.node e).loopNo ≠ s.loopNo)
    (he : ((s.moveOn dp e).node e).connected = true) : Walk s0 (s.moveOn dp e) start dp V := by
  refine h.stop hdp ⟨rfl, rfl, rfl, rfl⟩ rfl moveOn_connected h.moveOn_stamps
    (.inl ⟨?_, e, hup, ?_⟩)
  · intro x
    rw [moveOn_dirent, h.dirent]
  · rw [h.loopNo] at hstamp
    rw [moveOn_connected, h.connected] at he
    rcases h.stamped with ⟨hV, hstart, _⟩ | ⟨_, hst⟩
    · rcases he with (he | he) | he
      · exact .inl he
      · exact absurd he (hV e)
      · exact .inr (he.trans hstart)
    · rw [Ne, hst e] at hstamp
      rcases he with (he | he) | he
      · exact .inl he
      · by_contra hne
        exact hstamp (.inr ⟨he, fun h => hne (.inr h)⟩)
      · exact absurd (.inl he) hstamp

theorem step (hup : s0.up dp = some e) (hmem : e ∈ s0.inos)
    (he : ((s.moveOn dp e).node e).connected = false) :
    Walking s0 (s.moveOn dp e) start e (fun x => V x ∨ x = dp) := by
  have hV : ∀ a b, Inside s0 V a b → Inside s0 (fun x => V x ∨ x = dp) a b :=
    fun a b hab => ⟨.inl hab.1, hab.2⟩
  have hlast : Inside s0 (fun x => V x ∨ x = dp) dp e := ⟨.inr rfl, hup⟩
  have hstartV : V start ∨ start = dp := by
    rcases h.stamped with ⟨_, hstart, _⟩ | ⟨hstart, _⟩
    · exact .inr hstart.symm
    · exact .inl hstart
  constructor
  · exact ⟨h.same.inos, h.same.root, h.same.sysdir, h.same.lostfound⟩
  · exact h.loopNo
  · intro x
    rw [moveOn_dirent, h.dirent]
  · intro x
    rw [moveOn_connected, h.connected, or_assoc]
  · rintro x (hx | rfl)
    · exact h.fresh x hx
    · exact ⟨h.mem, h.unconnected hdp⟩
  · rintro x (hx | rfl)
    · exact ReflTransGen.mono hV _ _ (h.fromStart x hx)
    · exact (ReflTransGen.mono hV _ _ (h.fromStart dp (.inr rfl))).tail hlast
  · rintro x (hx | rfl)
    · exact (ReflTransGen.mono hV _ _ (h.toLast x hx)).tail hlast
    · exact ReflTransGen.single hlast
  · exact hmem
  · exact h.moveOn_stamps
  · refine .inr ⟨hstartV, fun x => ?_⟩
    rw [moveOn_loopNo, ← h.loopNo]
    by_cases hx : x = e
    · simp [hx]
    · rw [if_neg hx, h.loopNo]
      rcases h.stamped with ⟨hnone, hstart, hst⟩ | ⟨hstart, hst⟩
      · simp [hst x, hx, hnone x, hstart]
      · rw [hst x]
        have hdps : dp ≠ start := fun heq => h.not_mem hdp (heq ▸ hstart)
        constructor
        · rintro (rfl | ⟨hVx, hxs⟩)
          · exact .inr ⟨.inr rfl, hdps⟩
          · exact .inr ⟨.inl hVx, hxs⟩
        · rintro (hxe | ⟨hVx | rfl, hxs⟩)
          · exact absurd hxe hx
          · exact .inr ⟨hVx, hxs⟩
          · exact .inl rfl

end Walking

theorem connectLoop_walk (henv : Willing env s0.inos) (hlf : s0.lostfoundIno ≠ 0)
    (htop : ∀ d, s0.IsTop d → (s0.node d).connected = true)
    (hdir : ∀ d ∈ s0.inos, (s0.node d).dirent = 0 ∨ (s0.node d).dirent ∈ s0.inos) (fuel) {s dp V}
    (h : Walking s0 s start dp V) (hdp : (s.node dp).connected = false)
      (hfuel : s.unmarked < fuel) :
    ∃ s1 k V', connectLoop env fuel dp s = some (.ok (), s1) ∧ Walk s0 s1 start k V' := by
  induction fuel generalizing s dp V with
  | zero => exact absurd hfuel (Nat.not_lt_zero _)
  | succ fuel ih =>
    have hdpmem : dp ∈ s.inos := h.same.inos ▸ h.mem
    have hless := unmarked_mark_lt hdpmem hdp
    have hnotTop : ¬ s0.IsTop dp := fun ht => by
      have := htop dp ht
      rw [h.unconnected hdp] at this
      cases this
    unfold connectLoop
    simp only [hdp, Bool.false_eq_true, if_false, henv.yes, if_true, h.dirent dp]
    split
    · next hz =>
      refine ⟨_, dp, V, rfl, h.graft hdp henv hlf (.inl ?_)⟩
      simp [Ost.up, hz]
    · next hz =>
      have hup : s0.up dp = some (s0.node dp).dirent := up_eq_some.mpr ⟨hnotTop, hz, rfl⟩
      have hmem : (s0.node dp).dirent ∈ s0.inos := (hdir dp h.mem).resolve_left hz
      generalize (s0.node dp).dirent = e at hup hmem hz
      have hlook : s.lookup e = some (s.node e) := if_pos (h.same.inos ▸ hmem)
      simp only [hlook]
      by_cases hst : (s.node e).loopNo = s.loopNo
      · rw [if_neg (not_not.mpr hst)]
        refine ⟨_, dp, V, rfl, h.graft hdp henv hlf (.inr ⟨e, hup, ?_⟩)⟩
        rw [h.loopNo] at hst
        rcases h.stamped with ⟨_, _, hnone⟩ | ⟨hstart, hst'⟩
        · exact absurd hst (hnone e)
        · rcases (hst' e).mp hst with rfl | ⟨hVe, hes⟩
          · exact ⟨.inr rfl, fun heq => h.not_mem hdp (heq ▸ hstart)⟩
          · exact ⟨.inl hVe, hes⟩
      · rw [if_pos hst]
        change ∃ s1 k V', connectLoop env fuel e (s.moveOn dp e) = _ ∧ _
        have hcount : (s.moveOn dp e).unmarked = (s.mark dp).unmarked := by
          apply countP_congr
          intro x _
          simp only [Ost.moveOn, Ost.stamp, alter_node]
          split <;> simp
        cases hc : ((s.moveOn dp e).node e).connected with
        | true =>
          cases fuel with
          | zero => omega
          | succ fuel =>
            refine ⟨s.moveOn dp e, dp, V, ?_, h.join hdp hup hst hc⟩
            unfold connectLoop
            simp only [hc, if_true]
        | false => exact ih (h.step hdp hup hmem hc) hc (by omega)

/-! ### One call of `connect_directory` -/

/-- Nothing the walks look at has changed. -/
structure SameLinks (s s' : Ost) : Prop where
  same : SameDirs s s'
  loopNo : s'.loopNo = s.loopNo
  dirent : ∀ x, (s'.node x).dirent = (s.node x).dirent
  connected : ∀ x, (s'.node x).connected = (s.node x).connected
  stamp : ∀ x, (s'.node x).loopNo = (s.node x).loopNo

theorem SameLinks.refl (s : Ost) : SameLinks s s :=
  ⟨⟨rfl, rfl, rfl, rfl⟩, rfl, fun _ => rfl, fun _ => rfl, fun _ => rfl⟩

theorem SameLinks.trans {s s' s'' : Ost} (h : SameLinks s s') (h' : SameLinks s' s'') :
    SameLinks s s'' :=
  ⟨h.same.trans h'.same, h'.loopNo.trans h.loopNo, fun x => (h'.dirent x).trans (h.dirent x),
    fun x => (h'.connected x).trans (h.connected x), fun x => (h'.stamp x).trans (h.stamp x)⟩

theorem sameLinks_icountDelta (s : Ost) (d : Nat) (n : Int) : SameLinks s (s.icountDelta d n) :=
  ⟨⟨rfl, rfl, rfl, rfl⟩, rfl, fun _ => rfl, fun _ => rfl, fun _ => rfl⟩

theorem sameLinks_alter (s : Ost) (d : Nat) : SameLinks s
    (s.alter d fun dp => { dp with dotDot := dp.dirent }) := by
  refine ⟨⟨rfl, rfl, rfl, rfl⟩, rfl, ?_, ?_, ?_⟩ <;>
  · intro x
    rw [alter_node]
    split <;> rfl

theorem sameLinks_ite {c : Prop} [Decidable c] {t t' : Ost} (h : SameLinks s t)
    (h' : SameLinks s t') : SameLinks s (if c then t else t') := by
  split
  · exact h
  · exact h'

theorem sameLinks_fixDotDot (s : Ost) (d : Nat) : SameLinks s (fixDotDot s d) := by
  unfold fixDotDot
  cases s.dotDotEntry d with
  | none => exact SameLinks.refl s
  | some old =>
    have hold : SameLinks s (if old ≠ 0 then s.icountDelta old (-1) else s) :=
      sameLinks_ite (sameLinks_icountDelta s old (-1)) (SameLinks.refl s)
    refine (hold.trans ?_).trans (sameLinks_alter _ d)
    exact ⟨⟨rfl, rfl, rfl, rfl⟩, rfl, fun _ => rfl, fun _ => rfl, fun _ => rfl⟩

theorem sameLinks_orphanDotDot (d : Nat) (s : Ost) : SameLinks s (orphanDotDot d s) := by
  refine sameLinks_ite ?_ (SameLinks.refl s)
  have hold : SameLinks s
      (if (s.node d).dotDot ≠ 0 then s.icountDelta (s.node d).dotDot (-1) else s) :=
    sameLinks_ite (sameLinks_icountDelta s _ (-1)) (SameLinks.refl s)
  exact (hold.trans (sameLinks_alter _ d)).trans (sameLinks_icountDelta _ _ 1)

theorem sameLinks_checkDotDot (env : Env) (d : Nat) (s : Ost) :
    SameLinks s (checkDotDot env d s) := by
  unfold checkDotDot
  dsimp only
  split
  · exact (sameLinks_orphanDotDot d s).trans (sameLinks_fixDotDot _ d)
  · exact sameLinks_orphanDotDot d s

theorem Walk.congr {s2 : Ost} (h : Walk s0 s1 start k V) (h' : SameLinks s1 s2) :
    Walk s0 s2 start k V := by
  refine ⟨h.same.trans h'.same, h'.loopNo.trans h.loopNo, ?_, h.fresh, h.not_mem, h.fromStart,
    h.toLast, ?_, ?_⟩
  · intro x
    rw [h'.connected, h.connected]
  · intro x
    rw [h'.stamp, h'.loopNo]
    exact h.stamps x
  · rcases h.stop with ⟨hd, he⟩ | ⟨hd, he⟩
    · exact .inl ⟨fun x => (h'.dirent x).trans (hd x), he⟩
    · exact .inr ⟨fun x => (h'.dirent x).trans (hd x), he⟩

def Ost.nextLoop (s : Ost) : Ost := { s with loopNo := s.loopNo + 1 }

/-- What the walks rely on, besides the marks. -/
structure Ready (env : Env) (s : Ost) : Prop where
  willing : Willing env s.inos
  lostfound : s.lostfoundIno ≠ 0
  tops : ∀ d, s.IsTop d → (s.node d).connected = true
  dirents : ∀ d ∈ s.inos, (s.node d).dirent = 0 ∨ (s.node d).dirent ∈ s.inos
  stamps : ∀ x, (s.node x).loopNo ≤ s.loopNo

theorem Ready.nextLoop (h : Ready env s) : Ready env s.nextLoop :=
  ⟨h.willing, h.lostfound, h.tops, h.dirents, fun x => (h.stamps x).trans (Nat.le_succ _)⟩

theorem connectDirectory_run (h : Ready env s) (hmem : d ∈ s.inos) :
    ∃ s1, connectDirectory env d s = some (.ok (), s1) ∧
      (((s.node d).connected = true ∧ SameLinks s.nextLoop s1) ∨
        ((s.node d).connected = false ∧ ∃ k V, Walk s.nextLoop s1 d k V)) := by
  have hrun : connectDirectory env d s =
      ((connectLoop env (s.inos.length + 1) d) >>= fun _ => Prog.modify (checkDotDot env d))
        s.nextLoop := rfl
  cases hc : (s.node d).connected with
  | true =>
    have hloop : connectLoop env (s.inos.length + 1) d s.nextLoop = some (.ok (), s.nextLoop) := by
      exact if_pos hc
    rw [hrun, Prog.bind_ok hloop]
    exact ⟨_, rfl, .inl ⟨rfl, sameLinks_checkDotDot env d s.nextLoop⟩⟩
  | false =>
    have hr := h.nextLoop
    have hwalking : Walking s.nextLoop s.nextLoop d d (fun _ => False) := by
      refine ⟨⟨rfl, rfl, rfl, rfl⟩, rfl, fun _ => rfl, by simp, by simp, ?_, by simp, hmem,
        hr.stamps, .inl ⟨by simp, rfl, ?_⟩⟩
      · rintro x (hx | rfl)
        · exact hx.elim
        · exact ReflTransGen.refl
      · intro x heq
        have := h.stamps x
        change (s.node x).loopNo = s.loopNo + 1 at heq
        omega
    have hfuel : s.nextLoop.unmarked < s.inos.length + 1 :=
      Nat.lt_succ_of_le countP_le_length
    obtain ⟨s1, k, V, hloop, hwalk⟩ :=
      connectLoop_walk hr.willing hr.lostfound hr.tops hr.dirents _ hwalking hc hfuel
    rw [hrun, Prog.bind_ok hloop]
    exact ⟨_, rfl, .inr ⟨rfl, k, V, hwalk.congr (sameLinks_checkDotDot env d s1)⟩⟩

end Ocfs2Tools.Pass3
