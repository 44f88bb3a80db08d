import Ocfs2Tools.Fsck.Walk

/-!
# What pass 3 leaves connected

From the description of a walk follow the invariants of the whole pass: only
directories without a parent or on a cycle are moved, and a marked directory lies
below a marked one. From these follows, in both directions, when every directory ends
up below the root or the system directory: every cycle has to be met first by a walk
from outside it, because a walk never stamps the directory it starts from.
-/

namespace Ocfs2Tools.Pass3

open List Relation Chain

variable {s s0 s1 o : Ost} {env : Env} {d e k start dp : Nat} {b : Nat}

/-! ### What every walk keeps -/

/-- The state `s` compared with the state `o` before the first walk: only directories without a
    parent or on a cycle were moved, and a marked directory lies below a marked one. -/
structure Inv (o s : Ost) : Prop where
  same : SameDirs o s
  stamps : ∀ x, (s.node x).loopNo ≤ s.loopNo
  kept : ∀ x, (s.node x).dirent = (o.node x).dirent ∨
    ((s.node x).dirent = o.lostfoundIno ∧ (s.node x).connected = true ∧
      (o.up x = none ∨ OnCycle o.up x) ∧ ¬ o.IsTop x)
  tops : ∀ x, o.IsTop x → (s.node x).connected = true
  closed : ∀ x, (s.node x).connected = true → o.IsTop x ∨
    ∃ y, s.up x = some y ∧ ((s.node y).connected = true ∨ y = o.lostfoundIno)

/-- What is assumed of the directories before the first walk. -/
structure Recorded (o : Ost) : Prop where
  dirents : ∀ d ∈ o.inos, (o.node d).dirent = 0 ∨ (o.node d).dirent ∈ o.inos
  lostfound_ne : o.lostfoundIno ≠ 0
  lostfound_mem : o.lostfoundIno ∈ o.inos
  lostfound_reaches : o.Reaches o.lostfoundIno

theorem Inv.up_eq (h : Inv o s) (hx : (s.node d).connected = false) : s.up d = o.up d := by
  rcases h.kept d with hd | ⟨_, hc, _⟩
  · exact h.same.up hd
  · rw [hx] at hc
    cases hc

theorem Inv.ready (h : Inv o s) (ho : Recorded o) (henv : Willing env o.inos) : Ready env s := by
  constructor
  · rw [h.same.inos]
    exact henv
  · rw [h.same.lostfound]
    exact ho.lostfound_ne
  · intro d hd
    exact h.tops d (h.same.isTop.mp hd)
  · intro d hd
    rw [h.same.inos] at hd ⊢
    rcases h.kept d with heq | ⟨heq, _⟩
    · rw [heq]
      exact ho.dirents d hd
    · rw [heq]
      exact .inr ho.lostfound_mem
  · exact h.stamps

theorem not_reaches_of_up_none (h : s.up d = none) (ht : ¬ s.IsTop d) : ¬ s.Reaches d := by
  rintro ⟨b, hb, hbt⟩
  rcases hb.cases_head with rfl | ⟨c, hc, _⟩
  · exact ht hbt
  · change s.up d = some c at hc
    rw [h] at hc
    cases hc

theorem OnCycle.not_reaches (h : OnCycle s.up d) : ¬ s.Reaches d :=
  OnCycle.not_ends h fun _ hb => up_of_isTop hb

theorem Inv.reaches (h : Inv o s) (hd : o.Reaches d) : s.Reaches d := by
  obtain ⟨b, hb, hbt⟩ := hd
  induction hb using ReflTransGen.head_induction_on with
  | refl => exact ⟨b, ReflTransGen.refl, h.same.isTop.mpr hbt⟩
  | @head a c hstep hrest ih =>
    have hreach : o.Reaches a := ⟨b, hrest.head hstep, hbt⟩
    refine Ends.step ih ?_
    rcases h.kept a with heq | ⟨_, _, hbad, hnt⟩
    · rw [h.same.up heq]
      exact hstep
    · rcases hbad with hnone | hcycle
      · exact absurd hreach (not_reaches_of_up_none hnone hnt)
      · exact absurd hreach (OnCycle.not_reaches hcycle)

/-! ### A walk and the invariant -/

section

variable {V : Nat → Prop} (W : Walk s0 s1 start k V) (I : Inv o s0)
include W

theorem Walk.next (hx : V d) : ∃ y, s0.up d = some y ∧ (V y ∨ y = k) := by
  rcases (W.toLast d hx).cases_head with rfl | ⟨y, hy, hrest⟩
  · exact absurd hx W.not_mem
  · refine ⟨y, hy.2, ?_⟩
    rcases hrest.cases_head with heq | ⟨z, hz, _⟩
    · exact .inr heq
    · exact .inl hz.1

theorem Walk.start_mem : V start ∨ start = k := by
  rcases (W.fromStart k (.inr rfl)).cases_head with heq | ⟨y, hy, _⟩
  · exact .inr heq
  · exact .inl hy.1

theorem Walk.up_ne (hx : d ≠ k) : s1.up d = s0.up d := by
  apply W.same.up
  rcases W.stop with ⟨hd, _⟩ | ⟨hd, _⟩
  · exact hd d
  · rw [hd d, if_neg hx]

include I

theorem Walk.up_eq (hx : V d ∨ d = k) : s0.up d = o.up d := I.up_eq (W.fresh d hx).2

theorem Walk.not_top (hx : V d ∨ d = k) : ¬ o.IsTop d := by
  intro ht
  have h1 := I.tops d ht
  rw [(W.fresh d hx).2] at h1
  cases h1

theorem Walk.above_o {a : Nat} (h : ReflTransGen (Inside s0 V) a b) : Above o.up a b := by
  refine ReflTransGen.mono (fun c d hcd => ?_) _ _ h
  exact (W.up_eq I (.inl hcd.1)).symm.trans hcd.2

theorem Walk.closed_of_back (hk : s0.up k = some e) (he : V e ∨ e = k) :
    ∀ a, (V a ∨ a = k) → ∃ b, (V b ∨ b = k) ∧ o.up a = some b := by
  rintro a (ha | rfl)
  · obtain ⟨y, hy, hmem⟩ := W.next ha
    exact ⟨y, hmem, (W.up_eq I (.inl ha)).symm.trans hy⟩
  · exact ⟨e, he, (W.up_eq I (.inr rfl)).symm.trans hk⟩

theorem Walk.onCycle_of_back (hk : s0.up k = some e) (he : V e ∨ e = k) : OnCycle o.up k := by
  have hstep : Step o.up k e := (W.up_eq I (.inr rfl)).symm.trans hk
  rcases he with he | rfl
  · exact TransGen.head' hstep (W.above_o I (W.toLast e he))
  · exact TransGen.single hstep

theorem Walk.kept (x : Nat) : (s1.node x).dirent = (o.node x).dirent ∨
    ((s1.node x).dirent = o.lostfoundIno ∧ (s1.node x).connected = true ∧
      (o.up x = none ∨ OnCycle o.up x) ∧ ¬ o.IsTop x) := by
  have hold : (s1.node x).dirent = (s0.node x).dirent →
      (s1.node x).dirent = (o.node x).dirent ∨
        ((s1.node x).dirent = o.lostfoundIno ∧ (s1.node x).connected = true ∧
          (o.up x = none ∨ OnCycle o.up x) ∧ ¬ o.IsTop x) := by
    intro heq
    rcases I.kept x with h | ⟨h, hc, hbad⟩
    · exact .inl (heq.trans h)
    · exact .inr ⟨heq.trans h, (W.connected x).mpr (.inl hc), hbad⟩
  rcases W.stop with ⟨hd, _⟩ | ⟨hd, hup⟩
  · exact hold (hd x)
  · by_cases hx : x = k
    · subst hx
      refine .inr ⟨?_, (W.connected x).mpr (.inr (.inr rfl)), ?_, W.not_top I (.inr rfl)⟩
      · rw [hd x, if_pos rfl, I.same.lostfound]
      · rcases hup with hnone | ⟨e, he, hmem, _⟩
        · exact .inl ((W.up_eq I (.inr rfl)).symm.trans hnone)
        · exact .inr (W.onCycle_of_back I he hmem)
    · exact hold (by rw [hd x, if_neg hx])

theorem Walk.up_last_grafted (ho : Recorded o)
    (hd : ∀ x, (s1.node x).dirent = if x = k then s0.lostfoundIno else (s0.node x).dirent) :
    s1.up k = some o.lostfoundIno := by
  apply up_eq_some.mpr
  refine ⟨?_, ho.lostfound_ne, ?_⟩
  · rw [W.same.isTop, I.same.isTop]
    exact W.not_top I (.inr rfl)
  · rw [hd k, if_pos rfl, I.same.lostfound]

theorem Walk.inv (ho : Recorded o) : Inv o s1 where
  same := I.same.trans W.same
  stamps := W.stamps
  kept := W.kept I
  tops := fun x hx => (W.connected x).mpr (.inl (I.tops x hx))
  closed := by
    intro x hx
    rcases (W.connected x).mp hx with hx | hx | rfl
    · rcases I.closed x hx with ht | ⟨y, hy, hyc⟩
      · exact .inl ht
      · have hne : x ≠ k := by
          rintro rfl
          rw [(W.fresh x (.inr rfl)).2] at hx
          cases hx
        refine .inr ⟨y, (W.up_ne hne).trans hy, ?_⟩
        exact hyc.imp_left fun h => (W.connected y).mpr (.inl h)
    · obtain ⟨y, hy, hmem⟩ := W.next hx
      have hne : x ≠ k := fun heq => W.not_mem (heq ▸ hx)
      exact .inr ⟨y, (W.up_ne hne).trans hy, .inl ((W.connected y).mpr (.inr hmem))⟩
    · rcases W.stop with ⟨hd, e, he, hstop⟩ | ⟨hd, _⟩
      · refine .inr ⟨e, (W.same.up (hd x)).trans he, .inl ((W.connected e).mpr ?_)⟩
        rcases hstop with hc | rfl
        · exact .inl hc
        · exact .inr W.start_mem
      · exact .inr ⟨_, W.up_last_grafted I ho hd, .inr rfl⟩

end

/-! ### Cycles that are entered from outside -/

/-- Every cycle is met first from outside: some directory below the cycle, but not on
    it, has a smaller inode number than all of the cycle. -/
def EnteredFromOutside (o : Ost) : Prop :=
  ∀ c ∈ o.inos, OnCycle o.up c →
    ∃ b ∈ o.inos, Above o.up b c ∧ ¬ OnCycle o.up b ∧ ∀ e, Above o.up c e → b < e

theorem Recorded.above_mem (ho : Recorded o) (hd : d ∈ o.inos) (hde : Above o.up d e) :
    e ∈ o.inos := by
  induction hde with
  | refl => exact hd
  | tail _ hstep ih =>
    obtain ⟨_, hne, heq⟩ := up_eq_some.mp hstep
    exact heq ▸ (ho.dirents _ ih).resolve_left (heq ▸ hne)

theorem Inv.marked_above {c : Nat} (I : Inv o s) (ho : Recorded o) (hcycle : OnCycle o.up c)
    (hfree : ∀ e, Above o.up c e → (s.node e).connected = false) (hbc : Above o.up b c)
    (hb : (s.node b).connected = true) : False := by
  induction hbc using ReflTransGen.head_induction_on with
  | refl =>
    rw [hfree c ReflTransGen.refl] at hb
    cases hb
  | @head a z hstep hrest ih =>
    have hnt : ¬ o.IsTop a := (up_eq_some.mp hstep).1
    apply ih
    rcases I.kept a with heq | ⟨_, _, hbad, _⟩
    · rcases I.closed a hb with ht | ⟨y, hy, hyc⟩
      · exact absurd ht hnt
      · have hyz : y = z := step_unique o.up ((I.same.up heq).symm.trans hy) hstep
        subst hyz
        rcases hyc with hyc | rfl
        · exact hyc
        · -- lost+found lies below the root, not below a cycle
          obtain ⟨b, hlb, hbt⟩ := ho.lostfound_reaches
          rcases above_total hrest hlb with h | h
          · exact absurd ⟨b, h, hbt⟩ (OnCycle.not_reaches hcycle)
          · rcases h.cases_head with rfl | ⟨w, hw, _⟩
            · exact absurd ⟨b, ReflTransGen.refl, hbt⟩ (OnCycle.not_reaches hcycle)
            · exact absurd hbt (up_eq_some.mp hw).1
    · rcases hbad with hnone | hcyc
      · change o.up a = some z at hstep
        rw [hnone] at hstep
        cases hstep
      · have hca := (hcyc.above (hrest.head hstep)).2
        rw [hfree a hca] at hb
        cases hb

section

variable {V : Nat → Prop} (W : Walk s0 s1 start k V) (I : Inv o s0) (ho : Recorded o)
include W I ho

theorem Walk.not_back (hcond : EnteredFromOutside o)
    (hdone : ∀ x ∈ o.inos, x < start → (s0.node x).connected = true)
    (hk : s0.up k = some start) : False := by
  have hclosed := W.closed_of_back I hk W.start_mem
  have hfree : ∀ e, Above o.up start e → (s0.node e).connected = false := fun e he =>
    (W.fresh e (above_mem (V := fun a => V a ∨ a = k) hclosed W.start_mem he)).2
  have hcycle : OnCycle o.up start :=
    TransGen.tail' (W.above_o I (W.fromStart k (.inr rfl)))
      ((W.up_eq I (.inr rfl)).symm.trans hk)
  have hstart : start ∈ o.inos := I.same.inos ▸ (W.fresh start W.start_mem).1
  obtain ⟨b, hb, hbc, _, hless⟩ := hcond start hstart hcycle
  exact I.marked_above ho hcycle hfree hbc (hdone b hb (hless start ReflTransGen.refl))

theorem Walk.sound (hcond : EnteredFromOutside o)
    (hdone : ∀ x ∈ o.inos, x < start → (s0.node x).connected = true)
    (hsound : ∀ x, (s0.node x).connected = true → s0.Reaches x) :
    ∀ x, (s1.node x).connected = true → s1.Reaches x := by
  have hlast : s1.Reaches k := by
    rcases W.stop with ⟨hd, e, he, hstop⟩ | ⟨hd, _⟩
    · have hup : s1.up = s0.up := funext fun x => W.same.up (hd x)
      have hreach : ∀ x, s0.Reaches x → s1.Reaches x := by
        rintro x ⟨b, hb, hbt⟩
        exact ⟨b, hup ▸ hb, W.same.isTop.mpr hbt⟩
      rcases hstop with hc | rfl
      · exact Ends.step (hreach e (hsound e hc)) (hup ▸ he)
      · exact (W.not_back I ho hcond hdone he).elim
    · exact Ends.step ((W.inv I ho).reaches ho.lostfound_reaches) (W.up_last_grafted I ho hd)
  -- every chain goes on as before until it comes by the last directory
  have hkeep : ∀ {x b}, Above s0.up x b → s1.Reaches b → s1.Reaches x := by
    intro x b hxb hb
    induction hxb using ReflTransGen.head_induction_on with
    | refl => exact hb
    | @head a c hstep _ ih =>
      by_cases ha : a = k
      · exact ha ▸ hlast
      · exact Ends.step ih ((W.up_ne ha).trans hstep)
  intro x hx
  rcases (W.connected x).mp hx with hx | hx | rfl
  · obtain ⟨b, hb, hbt⟩ := hsound x hx
    exact hkeep hb ⟨b, ReflTransGen.refl, W.same.isTop.mpr hbt⟩
  · exact hkeep (ReflTransGen.mono (fun _ _ hab => hab.2) _ _ (W.toLast x hx)) hlast
  · exact hlast

omit ho in
/-- A walk that starts on a cycle nothing was marked on goes once around it and leaves
    it as it is. -/
theorem Walk.keeps_cycle (hcycle : OnCycle o.up start)
    (hfree : ∀ e, Above o.up start e → (s0.node e).connected = false) : ∀ e, Above o.up start e →
      (s1.node e).connected = true ∧ (s1.node e).dirent = (o.node e).dirent := by
  have hon : ∀ x, V x ∨ x = k → OnCycle o.up x := fun x hx =>
    (hcycle.above (W.above_o I (W.fromStart x hx))).1
  obtain ⟨e', he', _⟩ := (hon k (.inr rfl)).up_some
  have hstart' : Above o.up start e' := (W.above_o I (W.fromStart k (.inr rfl))).tail he'
  have hk : s0.up k = some e' := (W.up_eq I (.inr rfl)).trans he'
  rcases W.stop with ⟨hd, e, he, hstop⟩ | ⟨_, hstop⟩
  · have hee : e = e' := step_unique s0.up he hk
    subst hee
    have hes : e = start := hstop.resolve_left fun hc => by
      rw [hfree e hstart'] at hc
      cases hc
    subst hes
    have hclosed := W.closed_of_back I hk W.start_mem
    intro x hx
    refine ⟨(W.connected x).mpr (.inr (above_mem (V := fun a => V a ∨ a = k) hclosed W.start_mem
      hx)), ?_⟩
    rw [hd x]
    rcases I.kept x with heq | ⟨_, hc, _⟩
    · exact heq
    · rw [hfree x hx] at hc
      cases hc
  · -- the parent of the last directory would have two directories of the cycle below it
    exfalso
    rcases hstop with hnone | ⟨e, he, hmem, hne⟩
    · rw [hk] at hnone
      cases hnone
    · have hee : e = e' := step_unique s0.up he hk
      subst hee
      rcases (W.fromStart e hmem).cases_tail with heq | ⟨a, _, ha⟩
      · exact hne heq
      · have hup : o.up a = some e := (W.up_eq I (.inl ha.1)).symm.trans ha.2
        exact W.not_mem ((hon a (.inl ha.1)).pred_unique (hon k (.inr rfl)) hup he' ▸ ha.1)

end

/-! ### The whole pass -/

theorem Inv.nextLoop (I : Inv o s) : Inv o s.nextLoop :=
  ⟨⟨I.same.inos, I.same.root, I.same.sysdir, I.same.lostfound⟩,
    fun x => (I.stamps x).trans (Nat.le_succ _), I.kept, I.tops, I.closed⟩

theorem Inv.congr (I : Inv o s) (h : SameLinks s s1) : Inv o s1 := by
  refine ⟨I.same.trans h.same, ?_, ?_, ?_, ?_⟩
  · intro x
    rw [h.stamp, h.loopNo]
    exact I.stamps x
  · intro x
    rw [h.dirent, h.connected]
    exact I.kept x
  · intro x hx
    rw [h.connected]
    exact I.tops x hx
  · intro x hx
    rw [h.connected] at hx
    rcases I.closed x hx with ht | ⟨y, hy, hyc⟩
    · exact .inl ht
    · refine .inr ⟨y, (h.same.up (h.dirent x)).trans hy, ?_⟩
      rwa [h.connected]

/-- The run rule of the loop over the directories: what one call of
    `connect_directory` keeps, in the order of the inode numbers, the loop keeps. -/
theorem connectAll_run {P : List Nat → Ost → Prop} (ho : Recorded o) (henv : Willing env o.inos)
    (hmarked : ∀ d l s s1, (d :: l).Pairwise (· < ·) → d ∈ o.inos → Inv o s → P (d :: l) s →
      (s.node d).connected = true → SameLinks s.nextLoop s1 → P l s1)
    (hwalk : ∀ d l s s1 k V, (d :: l).Pairwise (· < ·) → d ∈ o.inos → Inv o s → P (d :: l) s →
      Walk s.nextLoop s1 d k V → P l s1) :
    ∀ l s, l.Pairwise (· < ·) → (∀ d ∈ l, d ∈ o.inos) → Inv o s → P l s →
      ∃ s1, connectAll env l s = some (.ok (), s1) ∧ Inv o s1 ∧ P [] s1
  | [], s, _, _, I, hP => ⟨s, rfl, I, hP⟩
  | d :: l, s, hsorted, hmem, I, hP => by
    have hd : d ∈ o.inos := hmem d mem_cons_self
    obtain ⟨s1, hrun, hcase⟩ := connectDirectory_run (I.ready ho henv) (I.same.inos ▸ hd)
    have hnext : Inv o s1 ∧ P l s1 := by
      rcases hcase with ⟨hc, hsame⟩ | ⟨_, k, V, W⟩
      · exact ⟨I.nextLoop.congr hsame, hmarked d l s s1 hsorted hd I hP hc hsame⟩
      · exact ⟨W.inv I.nextLoop ho, hwalk d l s s1 k V hsorted hd I hP W⟩
    obtain ⟨s2, hrest, hI, hP2⟩ := connectAll_run ho henv hmarked hwalk l s1
      (pairwise_cons.mp hsorted).2 (fun x hx => hmem x (mem_cons_of_mem d hx))
      hnext.1 hnext.2
    refine ⟨s2, ?_, hI, hP2⟩
    show (connectDirectory env d >>= fun _ => connectAll env l) s = _
    rw [Prog.bind_ok hrun]
    exact hrest

section Loop

variable (ho : Recorded o) (henv : Willing env o.inos) (hsorted : o.inos.Pairwise (· < ·))
  (I : Inv o o) (hmarks : ∀ x, (o.node x).connected = true → o.IsTop x)
include ho henv hsorted I hmarks

/-- If every cycle is entered from outside, the loop leaves every directory connected. -/
theorem connectAll_sound (hcond : EnteredFromOutside o) :
    ∃ s1, connectAll env o.inos o = some (.ok (), s1) ∧ Inv o s1 ∧ ∀ d ∈ o.inos, s1.Reaches d := by
  -- the directories before the rest of the list are marked, and what is marked is connected
  let P : List Nat → Ost → Prop := fun l s =>
    (∀ x ∈ o.inos, x ∉ l → (s.node x).connected = true) ∧
      ∀ x, (s.node x).connected = true → s.Reaches x
  have hfirst : ∀ {d x : Nat} {l}, (d :: l).Pairwise (· < ·) → x < d → x ∉ d :: l := by
    intro d x l hs hx hmem
    rcases mem_cons.mp hmem with rfl | hm
    · exact lt_irrefl _ hx
    · exact lt_asymm hx ((pairwise_cons.mp hs).1 x hm)
  obtain ⟨s1, hrun, hI, hdone, hsound⟩ := connectAll_run (P := P) ho henv
    (by
      rintro d l s s1 _ _ _ ⟨hdone, hsound⟩ hc hsame
      refine ⟨fun x hx hxl => ?_, fun x hx => ?_⟩
      · rw [hsame.connected]
        by_cases hxd : x = d
        · exact hxd ▸ hc
        · exact hdone x hx (by simp [hxd, hxl])
      · rw [hsame.connected] at hx
        obtain ⟨b, hb, hbt⟩ := hsound x hx
        have hup : s1.up = s.up := funext fun y => hsame.same.up (hsame.dirent y)
        exact ⟨b, hup ▸ hb, hsame.same.isTop.mpr hbt⟩)
    (by
      rintro d l s s1 k V hs hd I ⟨hdone, hsound⟩ W
      refine ⟨fun x hx hxl => (W.connected x).mpr ?_, ?_⟩
      · by_cases hxd : x = d
        · exact .inr (hxd ▸ W.start_mem)
        · exact .inl (hdone x hx (by simp [hxd, hxl]))
      · exact W.sound I.nextLoop ho hcond (fun x hx hlt => hdone x hx (hfirst hs hlt)) hsound)
    o.inos o hsorted (fun _ h => h) I
    ⟨fun x hx hxl => absurd hx hxl, fun x hx => ⟨x, ReflTransGen.refl, hmarks x hx⟩⟩
  exact ⟨s1, hrun, hI, fun d hd => hsound d (hdone d hd not_mem_nil)⟩

/-- A cycle whose smallest directory comes before everything that leads to it survives. -/
theorem connectAll_keeps_cycle {m : Nat} (hm : m ∈ o.inos) (hcycle : OnCycle o.up m)
    (hfirst : ∀ b ∈ o.inos, Above o.up b m → m ≤ b) :
    ∃ s1, connectAll env o.inos o = some (.ok (), s1) ∧ Inv o s1 ∧ ¬ s1.Reaches m := by
  -- before `m` is looked at nothing below the cycle is marked; then the cycle is, for good
  let P : List Nat → Ost → Prop := fun l s =>
    (m ∈ l ∧ ∀ b ∈ o.inos, Above o.up b m → (s.node b).connected = false) ∨
      ∀ e, Above o.up m e → (s.node e).connected = true ∧ (s.node e).dirent = (o.node e).dirent
  obtain ⟨s1, hrun, hI, hP⟩ := connectAll_run (P := P) ho henv
    (by
      rintro d l s s1 _ _ _ hP hc hsame
      rcases hP with ⟨hml, hfree⟩ | hkept
      · refine .inl ⟨?_, fun b hb hbm => by rw [hsame.connected]; exact hfree b hb hbm⟩
        rcases mem_cons.mp hml with rfl | hml
        · rw [hfree m hm ReflTransGen.refl] at hc
          cases hc
        · exact hml
      · refine .inr fun e he => ?_
        rw [hsame.connected, hsame.dirent]
        exact hkept e he)
    (by
      rintro d l s s1 k V hs hd I hP W
      rcases hP with ⟨hml, hfree⟩ | hkept
      · rcases mem_cons.mp hml with rfl | hml
        · refine .inr (W.keeps_cycle I.nextLoop hcycle fun e he => ?_)
          exact hfree e (ho.above_mem hm he) (hcycle.above he).2
        · have hlt : d < m := (pairwise_cons.mp hs).1 m hml
          refine .inl ⟨hml, fun b hb hbm => ?_⟩
          by_contra hc
          rcases (W.connected b).mp (by simpa using hc) with hc | hmem
          · rw [show (s.nextLoop.node b) = s.node b from rfl, hfree b hb hbm] at hc
            cases hc
          · have hdm := (W.above_o I.nextLoop (W.fromStart b hmem)).trans hbm
            exact absurd (hfirst d hd hdm) (not_le.mpr hlt)
      · refine .inr fun e he => ?_
        obtain ⟨hc, hde⟩ := hkept e he
        refine ⟨(W.connected e).mpr (.inl hc), ?_⟩
        have hne : e ≠ k := by
          rintro rfl
          have := (W.fresh e (.inr rfl)).2
          rw [show (s.nextLoop.node e) = s.node e from rfl, hc] at this
          cases this
        rcases W.stop with ⟨hd', _⟩ | ⟨hd', _⟩
        · exact (hd' e).trans hde
        · rw [hd' e, if_neg hne]
          exact hde)
    o.inos o hsorted (fun _ h => h) I
    (.inl ⟨hm, fun b _ hbm => by
      by_contra hc
      have ht := hmarks b (by simpa using hc)
      rcases hbm.cases_head with rfl | ⟨z, hz, _⟩
      · obtain ⟨z, hz, _⟩ := hcycle.up_some
        exact (up_eq_some.mp hz).1 ht
      · exact (up_eq_some.mp hz).1 ht⟩)
  refine ⟨s1, hrun, hI, ?_⟩
  rcases hP with ⟨hml, _⟩ | hkept
  · cases hml
  · refine not_ends_of_closed (V := fun e => Above o.up m e) ?_ ReflTransGen.refl ?_
    · intro a ha
      obtain ⟨b, hb, _⟩ := (hcycle.above ha).1.up_some
      exact ⟨b, ha.tail hb, (hI.same.up (hkept a ha).2).trans hb⟩
    · intro a ha ht
      obtain ⟨b, hb, _⟩ := (hcycle.above ha).1.up_some
      exact (up_eq_some.mp hb).1 (hI.same.isTop.mp ht)

end Loop

/-- The state the walks of pass 3 begin with, apart from the marks of the root and the
    system directory: root and lost+found have been looked for and, if need be, made. -/
def prepared (env : Env) (s : Ost) : Ost := checkLostfound env (checkRoot env s)

/-- Any set of directories with any parents: the root and the system directory are among them,
    nothing is marked yet, every parent is 0 or recorded, and lost+found is connected. -/
structure Directories (o : Ost) : Prop where
  sorted : o.inos.Pairwise (· < ·)
  root_mem : o.rootBlkno ∈ o.inos
  sysdir_mem : o.sysdirBlkno ∈ o.inos
  unmarked : ∀ d, (o.node d).connected = false
  stamps : ∀ d, (o.node d).loopNo ≤ o.loopNo
  recorded : Recorded o

def Ost.marked (o : Ost) : Ost := (o.mark o.rootBlkno).mark o.sysdirBlkno

theorem marked_dirent (x : Nat) : (o.marked.node x).dirent = (o.node x).dirent := by
  simp only [Ost.marked, Ost.mark, alter_node]
  split_ifs <;> rfl

theorem marked_loopNo (x : Nat) : (o.marked.node x).loopNo = (o.node x).loopNo := by
  simp only [Ost.marked, Ost.mark, alter_node]
  split_ifs <;> rfl

theorem marked_connected (hD : Directories o) (x : Nat) :
    (o.marked.node x).connected = true ↔ o.IsTop x := by
  have := hD.unmarked x
  simp only [Ost.marked, Ost.mark, alter_node, Ost.IsTop]
  split_ifs <;> simp_all

theorem marked_up : o.marked.up = o.up :=
  funext fun x => SameDirs.up ⟨rfl, rfl, rfl, rfl⟩ (marked_dirent x)

theorem marked_recorded (h : Recorded o) : Recorded o.marked := by
  refine ⟨?_, h.lostfound_ne, h.lostfound_mem, ?_⟩
  · intro d hd
    rw [marked_dirent]
    exact h.dirents d hd
  · obtain ⟨b, hb, hbt⟩ := h.lostfound_reaches
    refine ⟨b, ?_, hbt⟩
    rw [marked_up]
    exact hb

theorem marked_inv (hD : Directories o) : Inv o.marked o.marked := by
  refine ⟨⟨rfl, rfl, rfl, rfl⟩, ?_, fun _ => .inl rfl, ?_, ?_⟩
  · intro x
    rw [marked_loopNo]
    exact hD.stamps x
  · intro x hx
    exact (marked_connected hD x).mpr hx
  · intro x hx
    exact .inl ((marked_connected hD x).mp hx)

theorem o2fsckPass3_run (hD : Directories (prepared env s)) :
    o2fsckPass3 env s = connectAll env (prepared env s).marked.inos (prepared env s).marked := by
  have hroot : markConnected (prepared env s).rootBlkno (prepared env s) =
      some (.ok (), (prepared env s).mark (prepared env s).rootBlkno) := by
    simp only [markConnected, Ost.lookup, if_pos hD.root_mem]
  have hsys : markConnected (prepared env s).sysdirBlkno
      ((prepared env s).mark (prepared env s).rootBlkno) =
        some (.ok (), (prepared env s).marked) := by
    have hmem : (prepared env s).sysdirBlkno ∈
        ((prepared env s).mark (prepared env s).rootBlkno).inos := hD.sysdir_mem
    simp only [markConnected, Ost.lookup, if_pos hmem]
    rfl
  show (markConnected (prepared env s).rootBlkno >>= fun _ =>
    markConnected (prepared env s).sysdirBlkno >>= fun _ =>
      connectAll env (prepared env s).inos) (prepared env s) = _
  rw [Prog.bind_ok hroot, Prog.bind_ok hsys]
  rfl

theorem exists_first (h : ¬ EnteredFromOutside o) (ho : Recorded o) :
    ∃ m ∈ o.inos, OnCycle o.up m ∧ ∀ b ∈ o.inos, Above o.up b m → m ≤ b := by
  classical
  unfold EnteredFromOutside at h
  push Not at h
  obtain ⟨c, hc, hcycle, hall⟩ := h
  have hex : ∃ m, Above o.up c m := ⟨c, ReflTransGen.refl⟩
  have hm := Nat.find_spec hex
  have hmin : ∀ e, Above o.up c e → Nat.find hex ≤ e := fun e he => Nat.find_min' hex he
  refine ⟨Nat.find hex, ho.above_mem hc hm, (hcycle.above hm).1, fun b hb hbm => ?_⟩
  have hbc : Above o.up b c := hbm.trans (hcycle.above hm).2
  by_cases hbon : OnCycle o.up b
  · exact hmin b (hbon.above hbc).2
  · obtain ⟨e, he, hle⟩ := hall b hb hbc hbon
    exact (hmin e he).trans hle

/-- After pass 3 every directory lies below the root or the system directory exactly if
    every cycle of the parent references is met first from a directory outside it. -/
theorem o2fsckPass3_reaches_iff (hD : Directories (prepared env s))
    (henv : Willing env (prepared env s).inos) :
    (∃ s', o2fsckPass3 env s = some (.ok (), s') ∧ ∀ d ∈ s'.inos, s'.Reaches d) ↔
      EnteredFromOutside (prepared env s) := by
  have hrec := marked_recorded hD.recorded
  have hmarks : ∀ x, ((prepared env s).marked.node x).connected = true →
      (prepared env s).marked.IsTop x := fun x hx => (marked_connected hD x).mp hx
  have hcond : EnteredFromOutside (prepared env s).marked ↔
      EnteredFromOutside (prepared env s) := by
    unfold EnteredFromOutside
    rw [marked_up]
    rfl
  rw [← hcond, o2fsckPass3_run hD]
  constructor
  · rintro ⟨s', hrun, hall⟩
    by_contra hno
    obtain ⟨m, hm, hcycle, hfirst⟩ := exists_first hno hrec
    obtain ⟨s1, hrun1, hI, hbad⟩ := connectAll_keeps_cycle hrec henv hD.sorted (marked_inv hD)
      hmarks hm hcycle hfirst
    have hs : s' = s1 := by
      rw [hrun] at hrun1
      simpa using hrun1
    subst hs
    exact hbad (hall m (by rw [hI.same.inos]; exact hm))
  · intro hin
    obtain ⟨s1, hrun, hI, hall⟩ := connectAll_sound hrec henv hD.sorted (marked_inv hD) hmarks hin
    refine ⟨s1, hrun, fun d hd => hall d ?_⟩
    rw [← hI.same.inos]
    exact hd

/-! ### Two small file systems -/

/-- A file system with root 5, system directory 6 and lost+found 7; `parent` gives the
    parents of the other directories. -/
def smallOst (inos : List Nat) (parent : Nat → Nat) : Ost where
  inos := inos
  node := fun d => { dotDot := parent d, dirent := parent d, loopNo := 0, connected := false,
                     inOrphanDir := false }
  rootBlkno := 5
  sysdirBlkno := 6
  lostfoundIno := 0
  loopNo := 0
  icountRefs := fun _ => 1
  dotDotEntry := fun d => some (parent d)

/-- Every question is answered yes and every operation succeeds. -/
def smallEnv : Env where
  prompt := fun _ _ => true
  rootAllocated := true
  lookupLostfound := some 7
  newRoot := none
  superWritten := true
  newLostfound := none
  isDir := fun _ => some true
  linkFails := fun _ => false

theorem smallOst_directories {inos : List Nat} {parent : Nat → Nat}
    (hsorted : inos.Pairwise (· < ·)) (h5 : 5 ∈ inos) (h6 : 6 ∈ inos) (h7 : 7 ∈ inos)
    (hparent : ∀ d ∈ inos, parent d = 0 ∨ parent d ∈ inos) (h75 : parent 7 = 5) :
    Directories (prepared smallEnv (smallOst inos parent)) := by
  refine ⟨hsorted, h5, h6, fun _ => rfl, fun _ => le_refl _, ⟨hparent, ?_, h7, ?_⟩⟩
  · show 7 ≠ 0
    decide
  · refine ⟨5, ReflTransGen.single (up_eq_some.mpr ⟨?_, by decide, h75⟩), .inl rfl⟩
    rintro (h | h)
    · exact absurd (show 7 = 5 from h) (by decide)
    · exact absurd (show 7 = 6 from h) (by decide)

theorem smallEnv_willing (inos : List Nat) : Willing smallEnv inos :=
  ⟨fun _ _ => rfl, fun _ _ => ⟨rfl, rfl⟩⟩

/-- 8 and 9 name each other as parents. -/
def twoCycle : Ost := smallOst [5, 6, 7, 8, 9] fun d => if d = 8 then 9 else if d = 9 then 8 else 5

/-- The walk from 8 goes over 9 back to 8, finds it marked and stops: the cycle stays. -/
theorem o2fsckPass3_keeps_twoCycle :
    Directories (prepared smallEnv twoCycle) ∧ Willing smallEnv (prepared smallEnv twoCycle).inos ∧
      ∃ s', o2fsckPass3 smallEnv twoCycle = some (.ok (), s') ∧ 8 ∈ s'.inos ∧ ¬ s'.Reaches 8 := by
  refine ⟨smallOst_directories (by decide) (by decide) (by decide) (by decide) (by decide) rfl,
    smallEnv_willing _, _, rfl, by decide, ?_⟩
  apply OnCycle.not_reaches
  refine TransGen.tail (b := 9) (TransGen.single ?_) ?_
  · show Ost.up _ 8 = some 9
    decide
  · show Ost.up _ 9 = some 8
    decide

/-- 9 and 10 name each other as parents, and 8 lies below them. -/
def enteredCycle : Ost := smallOst [5, 6, 7, 8, 9, 10] fun d =>
  if d = 8 then 9 else if d = 9 then 10 else if d = 10 then 9 else 5

theorem enteredCycle_above {c e : Nat} (hc : c = 9 ∨ c = 10)
    (h : Above (prepared smallEnv enteredCycle).up c e) : e = 9 ∨ e = 10 := by
  refine above_mem (V := fun x => x = 9 ∨ x = 10) (fun a ha => ?_) hc h
  rcases ha with rfl | rfl
  · exact ⟨10, .inr rfl, rfl⟩
  · exact ⟨9, .inl rfl, rfl⟩

/-- The walk from 8 comes into the cycle at 9 and takes it apart there. -/
theorem o2fsckPass3_reaches_enteredCycle :
    ∃ s', o2fsckPass3 smallEnv enteredCycle = some (.ok (), s') ∧ ∀ d ∈ s'.inos, s'.Reaches d := by
  refine (o2fsckPass3_reaches_iff
    (smallOst_directories (by decide) (by decide) (by decide) (by decide) (by decide) rfl)
    (smallEnv_willing _)).mpr ?_
  have hup : Above (prepared smallEnv enteredCycle).up 8 9 := ReflTransGen.single rfl
  have h8 : ¬ OnCycle (prepared smallEnv enteredCycle).up 8 := by
    intro hcycle
    obtain ⟨b, hb, hback⟩ := hcycle.up_some
    cases hb
    have := enteredCycle_above (.inl rfl) hback
    omega
  have hless {c : Nat} (hc : c = 9 ∨ c = 10) (e : Nat)
      (he : Above (prepared smallEnv enteredCycle).up c e) : 8 < e := by
    have := enteredCycle_above hc he
    omega
  intro c hc hcycle
  obtain ⟨b, hb, -⟩ := hcycle.up_some
  have hmem : c = 5 ∨ c = 6 ∨ c = 7 ∨ c = 8 ∨ c = 9 ∨ c = 10 := by
    simpa [prepared, checkLostfound, checkRoot, smallEnv, enteredCycle, smallOst] using hc
  rcases hmem with rfl | rfl | rfl | rfl | rfl | rfl
  · cases hb
  · cases hb
  · exact absurd ⟨5, ReflTransGen.single rfl, .inl rfl⟩ (OnCycle.not_reaches hcycle)
  · exact absurd hcycle h8
  · exact ⟨8, by decide, hup, h8, hless (.inl rfl)⟩
  · exact ⟨8, by decide, hup.tail rfl, h8, hless (.inr rfl)⟩

end Ocfs2Tools.Pass3
