import Ocfs2Tools.Truncate.Cut

/-!
# The tree that is left

`CutOk` is the line between the trees that a walk with `truncate_iterate` cuts as it
should and the others: with it a well-formed tree with the records that should be left
remains (`cut_wf`), without it the device holds something else (`cut_wrong`).
-/

namespace Ocfs2Tools

open List ExtentRec

variable {fs : Filesys} {N : Nat}
  {rs pre : List ExtentRec} {lo hi hi' d : Nat} {el el' : ExtentList} {right : Bool}
  {kpre : List Node}

/-! ### When the result is right -/

/-- The walk is right about a tree of depth `d`: a leaf that keeps a record and loses clusters does
    not start with an empty record, and no list whose last record is shortened has stale slots. -/
def CutOk (N : Nat) : Nat → ExtentList → List Node → Prop
  | 0, el, _ => cutChanged N 0 el = true → (∃ r ∈ el.nonempty, r.eCpos < N) →
      el.live.head? ≠ some ExtentRec.zero ∧ ((∀ r ∈ el.live, r.eCpos < N) → ¬ Stale 0 el)
  | d + 1, el, ks => (∀ k ∈ ks, CutOk N d k.eb.hList k.kids) ∧ (cutChanged N (d + 1) el = true →
        (∀ k ∈ ks.getLast?, ∃ r ∈ treeRecs d k.eb.hList k.kids, r.eCpos < N) →
        ¬ Stale (d + 1) el)

instance decidableCutOk (N : Nat) : (d : Nat) → (el : ExtentList) → (ks : List Node) →
    Decidable (CutOk N d el ks)
  | 0, _, _ => inferInstanceAs (Decidable (_ → _ → _ ∧ (_ → ¬_)))
  | d + 1, _, _ =>
    have : ∀ k : Node, Decidable (CutOk N d k.eb.hList k.kids) := fun k =>
      decidableCutOk N d k.eb.hList k.kids
    inferInstanceAs (Decidable (_ ∧ (_ → _ → ¬_)))

theorem RecOk.shorten {r : ExtentRec} (h : RecOk fs r) {n : Nat} (hn : n ≤ r.eLeafClusters) :
    RecOk fs { r with eLeafClusters := n } := by
  have h1 := h.fits
  have h2 := h.bound
  exact ⟨⟨h1.cpos, lt_of_le_of_lt hn h1.leaf, h1.reserved, h1.flags⟩, h.blkno_ne, h.aligned,
    by show r.eBlkno / fs.bpc + n ≤ uint32Max; omega⟩

theorem dropEmpty_pos (h : ∀ r ∈ rs, r.eLeafClusters ≠ 0) : dropEmpty rs = rs := by
  cases rs with
  | nil => rfl
  | cons r rs =>
    have hr : r ≠ ExtentRec.zero := by
      rintro rfl
      exact h ExtentRec.zero (mem_cons_self ..) rfl
    rw [dropEmpty, if_neg hr]

theorem cutRecs_spaced {recs : List ExtentRec}
    (hs : Spaced eCpos eLeafClusters lo recs hi) (hlo : lo ≤ hi') (hhi : min hi N ≤ hi') :
    Spaced eCpos eLeafClusters lo (cutRecs N recs) hi' := by
  induction recs generalizing lo with
  | nil => exact hlo
  | cons r recs ih =>
    obtain ⟨h1, h2, h3⟩ := hs
    have hrest := h3.le
    have hcons : cutRecs N (r :: recs) = cutRecs N [r] ++ cutRecs N recs := cutRecs_append N [r] _
    by_cases hb : r.eCpos + r.eLeafClusters ≤ N
    · have h0 : r.eLeafClusters ≠ 0 := by omega
      rw [hcons, cutRecs, map_singleton, cutRec_below hb,
        filter_cons_of_pos (by simp [isEmptyExtent, h0])]
      exact ⟨h1, h2, ih h3 (by omega)⟩
    · have hnil : cutRecs N recs = [] := by
        refine cutRecs_above fun x hx => ?_
        have := (h3.mem_bounds x hx).1
        omega
      rw [hcons, hnil]
      by_cases ha : N ≤ r.eCpos
      · rw [cutRecs_above (by simpa using ha)]
        exact hlo
      · have h0 : N - r.eCpos ≠ 0 := by omega
        rw [cutRecs, map_singleton, cutRec_mid (by omega) (by omega),
          filter_cons_of_pos (by simp [isEmptyExtent, h0])]
        refine ⟨h1, by show 0 < N - r.eCpos; omega, ?_⟩
        show r.eCpos + (N - r.eCpos) ≤ hi'
        omega

theorem cutRecs_ok {recs : List ExtentRec} (h : ∀ r ∈ recs, RecOk fs r) :
    ∀ r ∈ cutRecs N recs, RecOk fs r := by
  intro r hr
  obtain ⟨hr, hne⟩ := mem_filter.mp hr
  obtain ⟨x, hx, rfl⟩ := mem_map.mp hr
  revert hne
  unfold cutRec
  split
  · exact fun _ => h x hx
  · split
    · intro hz
      exact absurd hz (by decide)
    · intro _
      exact (h x hx).shorten (by omega)

theorem leaf_cut (h : LeafOk fs lo hi el) (hok : CutOk N 0 el []) (hlo : lo ≤ hi')
    (hhi : min hi N ≤ hi') : LeafOk fs lo hi' (cut fs N 0 el []).el ∧
      (cut fs N 0 el []).el.nonempty = cutRecs N el.nonempty := by
  have hlen : (el.live.map (cutRec N)).length = el.live.length := length_map ..
  -- it is enough to know the records that are left
  have key : dropEmpty (cut fs N 0 el []).el.live = cutRecs N el.nonempty →
      LeafOk fs lo hi' (cut fs N 0 el []).el ∧
        (cut fs N 0 el []).el.nonempty = cutRecs N el.nonempty := by
    intro hlive
    have hL : LeafOk fs lo hi' (cut fs N 0 el []).el := by
      refine ⟨(finishEl_lTreeDepth ..).trans h.depth, finishEl_le hlen h.le, ?_, ?_⟩
      · rw [hlive]
        exact cutRecs_spaced h.nonempty_spaced hlo hhi
      · rw [hlive]
        exact cutRecs_ok fun r hr => h.recs r (h.nonempty_eq ▸ hr)
    exact ⟨hL, by rw [hL.nonempty_eq, hlive]⟩
  apply key
  have hdef : (cut fs N 0 el []).el =
      finishEl 0 (cutChanged N 0 el) el (el.live.map (cutRec N)) := rfl
  cases hc : cutChanged N 0 el with
  | false =>
    have hb := cutChanged_false.mp hc
    have hmap : el.live.map (cutRec N) = el.live :=
      (map_congr_left fun r hr => cutRec_below (hb r hr)).trans (map_id _)
    rw [hdef, hc, hmap, finishEl_unchanged, ← h.nonempty_eq]
    exact (cutRecs_below h.nonempty_spaced fun r hr => hb r (mem_filter.mp hr).1).symm
  | true =>
    by_cases hkeep : ∃ r ∈ el.nonempty, r.eCpos < N
    · obtain ⟨hhead, hstale⟩ := hok hc hkeep
      have hd := eq_dropEmpty hhead
      have hs := h.spaced
      rw [← hd] at hs
      rw [h.nonempty_eq, ← hd]
      obtain ⟨pre, mid, post, hlive, hpre, hmid, hpost⟩ := hs.cut N
      have hpos : ∀ r ∈ el.live, 0 < r.eLeafClusters := fun r hr => (hs.mem_bounds r hr).2.1
      have hz : post.map (cutRec N) = post.map fun _ => ExtentRec.zero :=
        map_congr_left fun r hr => cutRec_above (hpost r hr) (hpos r (by rw [hlive]; simp [hr]))
      -- what is kept, and that it is nowhere empty
      have hkept : ∀ r ∈ (pre ++ mid).map (cutRec N), recClusters 0 r ≠ 0 := by
        intro r hr
        obtain ⟨x, hx, rfl⟩ := mem_map.mp hr
        rw [recClusters_zero]
        rcases mem_append.mp hx with hx | hx
        · rw [cutRec_below (hpre x hx)]
          have := hpos x (by rw [hlive]; simp [hx])
          omega
        · rcases hmid with rfl | ⟨a, rfl, h1, h2⟩
          · cases hx
          · rw [mem_singleton] at hx
            rw [hx, cutRec_mid h1 h2]
            show N - a.eCpos ≠ 0
            omega
      have hsplit : el.live.map (cutRec N) =
          (pre ++ mid).map (cutRec N) ++ post.map fun _ => ExtentRec.zero := by
        rw [hlive, ← append_assoc, map_append, hz]
      have hrecs : cutRecs N el.live = (pre ++ mid).map (cutRec N) := by
        rw [hlive, ← append_assoc, cutRecs_append, cutRecs_above hpost, append_nil,
          cutRecs, filter_eq_self]
        intro r hr
        have := hkept r hr
        rw [recClusters_zero] at this
        simp [isEmptyExtent, this]
      rw [hsplit] at hlen
      obtain ⟨stale, hl, -, hst, -⟩ :=
        finishEl_live hkept (recClusters_map_zero 0 post) hlen h.le
      have hnil : stale = [] := by
        by_contra hne
        obtain ⟨hp, hS⟩ := hst.mp hne
        have hp' : post = [] := by simpa using hp
        refine hstale (fun r hr => ?_) hS
        rw [hlive, hp', append_nil] at hr
        rcases mem_append.mp hr with hr | hr
        · have h1 := hpre r hr
          have h2 := hpos r (by rw [hlive]; simp [hr])
          omega
        · rcases hmid with rfl | ⟨a, rfl, h1, -⟩
          · cases hr
          · rw [mem_singleton] at hr
            rw [hr]
            exact h1
      rw [hdef, hc, hsplit, hl, hnil, append_nil, hrecs]
      exact dropEmpty_pos hkept
    · simp only [not_exists, not_and, not_lt] at hkeep
      -- the first slot is clear already, or its record is cleared
      obtain ⟨x, hx, hxN⟩ := cutChanged_true.mp hc
      obtain ⟨z, zs, hlive⟩ := exists_cons_of_ne_nil (ne_nil_of_mem hx)
      have hz : (cutRec N z).eLeafClusters = 0 := by
        by_cases he : isEmptyExtent z = true
        · have h0 : z.eLeafClusters = 0 := by simpa [isEmptyExtent] using he
          have := cutRec_clusters_le N z
          omega
        · have hmem : z ∈ el.nonempty := by
            refine mem_filter.mpr ⟨by rw [hlive]; simp, ?_⟩
            simp [he]
          have hpos := (h.nonempty_spaced.mem_bounds z hmem).2.1
          rw [cutRec_above (hkeep z hmem) hpos]
          rfl
      have hnf : (cut fs N 0 el []).el.lNextFreeRec = 0 := by
        rw [hdef, hc, hlive]
        exact finishEl_first hz
      rw [ExtentList.live, hnf, cutRecs_above hkeep]
      rfl

/-- Every block is on the device under its own number. -/
def Stored (ebs : Nat → Option ExtentBlock) : Nat → List Node → Prop
  | 0, _ => True
  | d + 1, ks => ∀ k ∈ ks, ebs k.eb.hBlkno = some k.eb ∧ Stored ebs d k.kids

theorem readKids_stored {ebs ebs' : Nat → Option ExtentBlock} : ∀ {d el ks},
    readKids ebs d el = some ks → Stored ebs' d ks → readKids ebs' d el = some ks
  | 0, _, _, h, _ => h
  | d + 1, el, ks, h, hs => by
    rw [readKids_succ] at h ⊢
    refine forall₂_imp_mem h fun r _ k hk hl => ?_
    obtain ⟨h1, h2⟩ := hs k hk
    exact ⟨by rw [← hl.blkno]; exact h1, hl.blkno, readKids_stored hl.kids h2⟩

theorem leads_stored {ebs ebs' : Nat → Option ExtentBlock} {ks : List Node}
    (h : List.Forall₂ (Leads ebs d) rs ks) (hs : Stored ebs' (d + 1) ks) :
    List.Forall₂ (Leads ebs' d) rs ks := by
  refine forall₂_imp_mem h fun r _ k hk hl => ?_
  obtain ⟨h1, h2⟩ := hs k hk
  exact ⟨by rw [← hl.blkno]; exact h1, hl.blkno, readKids_stored hl.kids h2⟩

theorem WfList.set_right : ∀ {d right lo hi el ks}, WfList fs d right lo hi el ks →
    WfList fs d true lo hi el ks
  | 0, _, _, _, _, _, h => ⟨h.1, h.2.1, h.2.2.1, nofun⟩
  | d + 1, _, _, _, el, ks, h => by
    refine ⟨h.1, (nofun), ?_⟩
    obtain ⟨rs, r, js, k, hlive, rfl, hlen, hcnt, hkid⟩ := h.edge
    have hks : js ++ [k] = js ++ k :: [] := rfl
    have hpre := (h.kid hlive hks hlen).1
    rw [hlive, eachLast_append (by simp) hlen]
    exact ⟨hpre, hcnt, hkid.set_right⟩

theorem node_wf {kept rest : List ExtentRec} {kkept krest : List Node}
    (h : WfList fs (d + 1) right lo hi el (kkept ++ krest)) (hlive : el.live = kept ++ rest)
    (hlen : kept.length = kkept.length) (hne : kept ≠ []) (hrest : rest ≠ [])
    (hbelow : ∀ r ∈ kept, r.eCpos + r.eIntClusters ≤ N) (hdepth : el'.lTreeDepth = d + 1)
    (hle : el'.lNextFreeRec ≤ el'.lCount) (hlive' : el'.live = kept) :
    WfList fs (d + 1) true lo (min hi N) el' kkept := by
  have ht := h.1.tiled
  rw [hlive, tiled_append] at ht
  obtain ⟨r, kept', rfl⟩ := exists_cons_of_ne_nil hne
  have hE := h.2.2
  rw [hlive, eachLast_append hrest hlen] at hE
  have hsp := h.1.tiled.spaced
  have hr := hsp.mem_bounds r (by rw [hlive]; simp)
  have hrN := hbelow r (by simp)
  refine ⟨⟨hdepth, hle, by rw [hlive']; simp, ?_, ?_⟩, (nofun), ?_⟩
  · intro x hx
    rw [hlive'] at hx
    exact h.1.fits x (by rw [hlive]; exact mem_append_left _ hx)
  · rw [hlive']
    refine ht.1.restrict (fun x hx => ?_) (by omega)
    have h1 := (hsp.mem_bounds x (by rw [hlive]; exact mem_append_left _ hx)).2.2
    have h2 := hbelow x hx
    omega
  · rw [hlive']
    exact eachLast_of_forall₂ (fun _ _ hk => ⟨hk.1, hk.2.set_right⟩) hE.1

theorem node_wf_mid {post : List ExtentRec} {kpost : List Node} {m : ExtentRec} {k k' : Node}
    (h : WfList fs (d + 1) right lo hi el (kpre ++ k :: kpost)) (hhi : hi ≤ uint32Max)
    (hlive : el.live = pre ++ m :: post) (hlen : pre.length = kpre.length) (hstart : m.eCpos < N)
    (hstop : N < m.eCpos + m.eIntClusters) (hdepth : el'.lTreeDepth = d + 1)
    (hle : el'.lNextFreeRec ≤ el'.lCount)
    (hlive' : el'.live = pre ++ [m.setIntClusters (N - m.eCpos)])
    (hcnt : k'.eb.hList.lCount = extentRecsPerEb fs)
    (hk' : WfList fs d true m.eCpos N k'.eb.hList k'.kids) :
    WfList fs (d + 1) true lo (min hi N) el' (kpre ++ [k']) := by
  have hm := (h.1.tiled.spaced.mem_bounds m (by rw [hlive]; simp)).2.2
  have hint := eIntClusters_cut hhi hstart hstop hm
  have hend : m.eCpos + (N - m.eCpos) = N := by omega
  have ht := h.1.tiled
  rw [hlive, tiled_append] at ht
  refine ⟨⟨hdepth, hle, by rw [hlive']; simp, ?_, ?_⟩, (nofun), ?_⟩
  · intro x hx
    rw [hlive'] at hx
    rcases mem_append.mp hx with hx | hx
    · exact h.1.fits x (by rw [hlive]; exact mem_append_left _ hx)
    · rw [mem_singleton] at hx
      subst hx
      have hf := (h.1.fits m (by rw [hlive]; simp)).cpos
      exact ⟨hf, Nat.mod_lt _ (by decide), Nat.mod_lt _ (by decide), Nat.mod_lt _ (by decide)⟩
  · rw [hlive', tiled_append]
    refine ⟨ht.1, ht.2.1, by omega, ?_⟩
    have := ht.2.1
    show _ ≤ min hi N
    omega
  · rw [hlive', eachLast_append (by simp) hlen]
    refine ⟨(h.kid hlive rfl hlen).1, hcnt, ?_⟩
    rw [hint, ExtentRec.eCpos_setIntClusters, hend]
    exact hk'

theorem cutOk_below : ∀ {d right lo hi el ks}, WfList fs d right lo hi el ks → hi ≤ N →
    CutOk N d el ks
  | 0, _, _, _, _, _, h, hN => fun hc => by
    rw [h.not_changed hN] at hc
    cases hc
  | d + 1, _, _, _, el, ks, h, hN => by
    refine ⟨fun k hk => ?_, fun hc => ?_⟩
    · obtain ⟨r, hr, _, -, hw⟩ := forall₂_mem_right h.pairs k hk
      exact cutOk_below hw (le_trans (h.below_end r hr) hN)
    · rw [h.not_changed hN] at hc
      cases hc

theorem cutOk_above : ∀ {d right lo hi el ks}, WfList fs d right lo hi el ks →
    (∀ r ∈ treeRecs d el ks, N ≤ r.eCpos) → CutOk N d el ks
  | 0, _, _, _, _, _, _, hall => by
    rintro - ⟨r, hr, hlt⟩
    have := hall r hr
    omega
  | d + 1, _, _, _, el, ks, h, hall => by
    have hkid : ∀ k ∈ ks, ∀ r ∈ treeRecs d k.eb.hList k.kids, N ≤ r.eCpos := fun k hk r hr =>
      hall r (mem_flatMap.mpr ⟨k, hk, hr⟩)
    refine ⟨fun k hk => ?_, fun _ hlast => ?_⟩
    · obtain ⟨_, -, _, -, hw⟩ := forall₂_mem_right h.pairs k hk
      exact cutOk_above hw (hkid k hk)
    · obtain ⟨_, _, js, k, -, rfl, -⟩ := h.edge
      obtain ⟨r, hr, hlt⟩ := hlast k (by simp)
      have := hkid k (by simp) r hr
      omega

section Interior

variable {ks krest kpost : List Node} {rest post : List ExtentRec} {m : ExtentRec} {k : Node}

theorem Parted.step (p : Parted el ks pre (m :: post) kpre (k :: kpost)) :
    Parted el ks (pre ++ [m]) post (kpre ++ [k]) kpost :=
  ⟨p.live.trans (append_cons ..), p.kids.trans (append_cons ..), by simp [p.len]⟩

theorem Cleared.rest_ne (c : Cleared fs N d el ks pre rest kpre krest)
    (hc : cutChanged N (d + 1) el = true) : rest ≠ [] := by
  rintro rfl
  obtain ⟨r, hr, hrN⟩ := cutChanged_true.mp hc
  rw [c.live, append_nil] at hr
  have := c.below r hr
  rw [recClusters_succ] at hrN
  omega

variable (h : WfList fs (d + 1) right lo hi el ks)

include h

section

variable (p : Parted el ks pre rest kpre krest)
include p

theorem Parted.rest_length : rest.length = krest.length := by
  have := h.2.2.length_eq
  rw [p.live, p.kids, length_append, length_append, p.len] at this
  omega

theorem WfList.before (below : ∀ r ∈ pre, r.eCpos + r.eIntClusters ≤ N) :
    ∀ k ∈ kpre, CutOk N d k.eb.hList k.kids ∧
      ∀ x ∈ treeRecs d k.eb.hList k.kids, x.eCpos + x.eLeafClusters ≤ N := by
  have hp := h.pairs
  rw [p.live, p.kids, forall₂_append p.len] at hp
  intro k hk
  obtain ⟨r, hr, _, -, hw⟩ := forall₂_mem_right hp.1 k hk
  exact ⟨cutOk_below hw (below r hr), fun x hx =>
    le_trans (hw.recs_spaced.mem_bounds x hx).2.2 (below r hr)⟩

theorem WfList.behind (above : ∀ r ∈ rest, N ≤ r.eCpos) : ∀ k ∈ krest,
    CutOk N d k.eb.hList k.kids ∧ ∀ x ∈ treeRecs d k.eb.hList k.kids, N ≤ x.eCpos := by
  have hp := h.pairs
  rw [p.live, p.kids, forall₂_append p.len] at hp
  intro k hk
  obtain ⟨r, hr, _, -, hw⟩ := forall₂_mem_right hp.2 k hk
  have hx : ∀ x ∈ treeRecs d k.eb.hList k.kids, N ≤ x.eCpos := fun x hx =>
    le_trans (above r hr) (hw.recs_spaced.mem_bounds x hx).1
  exact ⟨cutOk_above hw hx, hx⟩

theorem WfList.kept_last (above : ∀ r ∈ rest, N ≤ r.eCpos)
    (hl : ∀ k ∈ ks.getLast?, ∃ r ∈ treeRecs d k.eb.hList k.kids, r.eCpos < N) :
    rest = [] ∧ krest = [] := by
  have hnil : krest = [] := by
    by_contra hne
    obtain ⟨r, hr, hlt⟩ := hl (krest.getLast hne) (by
      rw [p.kids, getLast?_append_of_ne_nil _ hne, getLast?_eq_some_getLast hne]
      rfl)
    have := (h.behind p above _ (getLast_mem hne)).2 r hr
    omega
  have hlen := p.rest_length h
  rw [hnil] at hlen
  exact ⟨length_eq_zero_iff.mp hlen, hnil⟩

theorem WfList.cutRecs_split (below : ∀ r ∈ pre, r.eCpos + r.eIntClusters ≤ N) :
    cutRecs N (treeRecs (d + 1) el ks) =
      treeRecs (d + 1) el kpre ++ cutRecs N (treeRecs (d + 1) el krest) := by
  have hs := h.recs_spaced
  have hsum : treeRecs (d + 1) el ks = treeRecs (d + 1) el kpre ++ treeRecs (d + 1) el krest := by
    rw [p.kids]
    exact flatMap_append
  rw [hsum, spaced_append] at hs
  obtain ⟨_, hs, -⟩ := hs
  rw [hsum, cutRecs_append, cutRecs_below hs fun x hx => ?_]
  obtain ⟨k, hk, hx⟩ := mem_flatMap.mp hx
  exact (h.before p below k hk).2 x hx

end

theorem WfList.live_cleared (c : Cleared fs N d el ks pre rest kpre krest)
    (hc : cutChanged N (d + 1) el = true) (hrest : rest ≠ []) :
    (cut fs N (d + 1) el ks).el.live = pre := by
  have hlen := cutOuts_length fs N d h.2.2.length_eq
  rw [c.recs] at hlen
  obtain ⟨stale, hl, -, hst, -⟩ :=
    finishEl_live (h.kept_pos c.live) (recClusters_map_zero _ _) hlen h.le_count
  have hnil : stale = [] := by
    by_contra hne
    exact hrest (by simpa using (hst.mp hne).1)
  rw [cut_succ, hc, c.recs, hl, hnil, append_nil]

theorem WfList.live_shortened (c : Shortened fs N d el ks pre post kpre kpost m k)
    (hhi : hi ≤ uint32Max) : ∃ stale, (cut fs N (d + 1) el ks).el.live =
        pre ++ m.setIntClusters (N - m.eCpos) :: stale ∧
      (stale ≠ [] ↔ post = [] ∧ Stale (d + 1) el) := by
  have hlen := cutOuts_length fs N d h.2.2.length_eq
  have hc : cutChanged N (d + 1) el = true :=
    cutChanged_true.mpr ⟨m, by rw [c.live]; simp, c.stop⟩
  rw [c.recs, append_cons] at hlen
  obtain ⟨stale, hl, -, hst, -⟩ := finishEl_live (h.kept_short hhi c.live c.start c.stop)
    (recClusters_map_zero _ _) hlen h.le_count
  refine ⟨stale, ?_, by simpa using hst⟩
  rw [cut_succ, hc, c.recs, append_cons, hl, ← append_cons]

end Interior

/-- What is left is a well-formed tree with the records that should be left, and it can be
    read where its blocks are stored. -/
structure CutRight (fs : Filesys) (N d lo hi : Nat) (el : ExtentList) (ks : List Node) : Prop where
  wf : WfList fs d true lo (min hi N) (cut fs N d el ks).el (cut fs N d el ks).kids
  recs : treeRecs d (cut fs N d el ks).el (cut fs N d el ks).kids = cutRecs N (treeRecs d el ks)
  reads : ∀ ebs ebs', readKids ebs d el = some ks → Stored ebs' d (cut fs N d el ks).kids →
    readKids ebs' d (cut fs N d el ks).el = some (cut fs N d el ks).kids

theorem CutRight.counted {ks : List Node} (h : CutRight fs N d lo hi el ks) :
    (cut fs N d el ks).el.lNextFreeRec ≠ 0 := by
  intro h0
  have hlen := ExtentList.live_length h.wf.le_count
  rw [h0] at hlen
  exact h.wf.live_ne (length_eq_zero_iff.mp hlen)

theorem WfList.cut_cleared {ks krest : List Node} {rest : List ExtentRec}
    (h : WfList fs (d + 1) right lo hi el ks) (hc : cutChanged N (d + 1) el = true)
    (hkeep : ∃ r ∈ treeRecs (d + 1) el ks, r.eCpos < N)
    (c : Cleared fs N d el ks pre rest kpre krest) (hrest : rest ≠ [])
    (hall : ∀ k ∈ krest, ∀ x ∈ treeRecs d k.eb.hList k.kids, N ≤ x.eCpos) :
    CutRight fs N (d + 1) lo hi el ks := by
  have hl := h.live_cleared c hc hrest
  have hrecs : cutRecs N (treeRecs (d + 1) el ks) = treeRecs (d + 1) el kpre := by
    rw [h.cutRecs_split c.toParted c.below, cutRecs_above, append_nil]
    intro x hx
    obtain ⟨k, hk, hx⟩ := mem_flatMap.mp hx
    exact hall k hk x hx
  have hne : pre ≠ [] := by
    intro hnil
    obtain ⟨r, hr, hrN⟩ := hkeep
    rw [← c.left, c.kids_nil.mp hnil] at hrecs
    exact cutRecs_ne h.recs_spaced hr hrN hrecs
  obtain ⟨hdepth, -, hle⟩ := cut_shape (N := N) h
  obtain ⟨⟨live, rfl, len⟩, below, -, -, left⟩ := c
  refine ⟨?_, ?_, fun _ _ hread hs => ?_⟩
  · rw [left]
    exact node_wf h live len hne hrest below hdepth hle hl
  · rw [left, hrecs]
    rfl
  · rw [readKids_succ, live, forall₂_append len] at hread
    rw [left] at hs ⊢
    rw [readKids_succ, hl]
    exact leads_stored hread.1 hs

/-- **When the walk is right**, a well-formed tree with the records that should be left remains. -/
theorem cut_wf : ∀ {d right lo hi el ks},
    WfList fs d right lo hi el ks → hi ≤ uint32Max → CutOk N d el ks →
    (∃ r ∈ treeRecs d el ks, r.eCpos < N) → CutRight fs N d lo hi el ks
  | 0, right, lo, hi, el, ks, h, hhi, hok, ⟨r, hr, hrN⟩ => by
    have hb := h.1.nonempty_spaced.mem_bounds r hr
    have hks := h.2.2.1
    subst hks
    obtain ⟨h1, h2⟩ := leaf_cut h.1 hok (by omega) (le_refl _)
    refine ⟨⟨h1, ?_, rfl, nofun⟩, h2, fun _ _ _ _ => rfl⟩
    rw [← h1.nonempty_eq, h2]
    exact cutRecs_ne h.1.nonempty_spaced hr hrN
  | d + 1, right, lo, hi, el, ks, h, hhi, hok, hkeep => by
    cases hc : cutChanged N (d + 1) el with
    | false =>
      have hb := cutChanged_false.mp hc
      obtain ⟨r, hr, hrN⟩ := hkeep
      have hbr := h.recs_spaced.mem_bounds r hr
      have hw := h.set_right
      constructor <;> rw [cut_unchanged h hc]
      · refine ⟨⟨hw.1.depth, hw.1.le, hw.1.ne, hw.1.fits, ?_⟩, hw.2⟩
        refine hw.1.tiled.restrict (fun x hx => ?_) (by omega)
        have h1 := (hw.1.tiled.spaced.mem_bounds x hx).2.2
        have h2 := hb x hx
        rw [recClusters_succ] at h2
        omega
      · have hsplit := h.cutRecs_split
          ⟨(append_nil _).symm, (append_nil _).symm, h.2.2.length_eq⟩ hb
        exact (hsplit.trans (append_nil _)).symm
      · exact fun _ _ => readKids_stored
    | true =>
      cases nodeCut h with
      | @clean pre post kpre kpost c above =>
        exact h.cut_cleared hc hkeep c (c.rest_ne hc) fun k hk =>
          (h.behind c.toParted above k hk).2
      | @gone pre post kpre kpost m k c above empty =>
        have hb := (h.1.tiled.spaced.mem_bounds m (by rw [c.live]; simp)).2.2
        refine h.cut_cleared hc hkeep c (by simp) fun j hj x hx => ?_
        rcases mem_cons.mp hj with rfl | hj
        · -- the block below is only gone if it has nothing to keep
          by_contra hlt
          exact (cut_wf (h.kid c.live c.kids c.len).2.2 (by omega)
            (hok.1 j (by rw [c.kids]; simp)) ⟨x, hx, by omega⟩).counted empty
        · exact (h.behind c.toParted.step above j hj).2 x hx
      | @mid pre post kpre kpost m k c =>
        obtain ⟨-, hcnt, hk⟩ := h.kid c.live c.kids c.len
        have hb := (h.1.tiled.spaced.mem_bounds m (by rw [c.live]; simp)).2.2
        have hkk : ∃ r ∈ treeRecs d k.eb.hList k.kids, r.eCpos < N := by
          by_contra hno
          simp only [not_exists, not_and, not_lt] at hno
          exact c.nonempty (cut_empty hk hno)
        obtain ⟨hw, hrec, hrd⟩ := cut_wf hk (by omega) (hok.1 k (by rw [c.kids]; simp)) hkk
        rw [min_eq_right (le_of_lt c.stop)] at hw
        obtain ⟨stale, hl, hst⟩ := h.live_shortened c hhi
        have hnil : stale = [] := by
          by_contra hne
          obtain ⟨hpost, hS⟩ := hst.mp hne
          have hkpost : kpost = [] := by
            have := c.toParted.step.rest_length h
            rw [hpost] at this
            exact length_eq_zero_iff.mp this.symm
          refine hok.2 hc (fun j hj => ?_) hS
          rw [c.kids, hkpost, getLast?_append, getLast?_singleton, Option.some_or,
            Option.mem_some_iff] at hj
          rw [← hj]
          exact hkk
        rw [hnil] at hl
        obtain ⟨hdepth, -, hle⟩ := cut_shape (N := N) h
        have hcut : cutRecs N (treeRecs (d + 1) el kpost) = [] := by
          refine cutRecs_above fun x hx => ?_
          obtain ⟨j, hj, hx⟩ := mem_flatMap.mp hx
          exact (h.behind c.toParted.step c.above j hj).2 x hx
        have hsplit := h.cutRecs_split c.toParted c.below
        obtain ⟨⟨live, rfl, len⟩, -, -, start, stop, -, -, left⟩ := c
        refine ⟨?_, ?_, fun _ _ hread hs => ?_⟩
        · rw [left]
          exact node_wf_mid h hhi live len start stop hdepth hle hl
            ((cut_shape hk).2.1.trans hcnt) hw
        · have hcons : cutRecs N (treeRecs (d + 1) el (k :: kpost)) =
              cutRecs N (treeRecs d k.eb.hList k.kids) ++ cutRecs N (treeRecs (d + 1) el kpost) :=
            cutRecs_append ..
          rw [left, hsplit, hcons, hcut, ← hrec, treeRecs, flatMap_append]
          rfl
        · rw [readKids_succ, live, forall₂_append len, forall₂_cons] at hread
          rw [left] at hs ⊢
          obtain ⟨hr1, hr2, -⟩ := hread
          obtain ⟨hs1, hs2⟩ := hs _ (mem_append_right _ (mem_singleton_self _))
          rw [readKids_concat hl len]
          refine ⟨leads_stored hr1 fun j hj => hs j (mem_append_left _ hj), ?_, hr2.blkno,
            hrd _ _ hr2.kids hs2⟩
          rw [ExtentRec.eBlkno_setIntClusters, ← hr2.blkno]
          exact hs1

/-! ### When the result is wrong -/

/-- A list of records that should not be what is left of `recs`: it does not cover a
    cluster of a record that starts before the new end, or it has a record behind it. -/
def Wrong (N : Nat) (recs left : List ExtentRec) : Prop :=
  (∃ r ∈ recs, r.eCpos < N ∧ ∀ x ∈ left, ¬ Covers eCpos eLeafClusters x r.eCpos) ∨
    ∃ x ∈ left, N ≤ x.eCpos

theorem leaf_wrong {lo' : Nat} (h : LeafOk fs lo hi el) (hok : ¬ CutOk N 0 el [])
    (h' : LeafOk fs lo' hi' (cut fs N 0 el []).el) :
    Wrong N el.nonempty (cut fs N 0 el []).el.nonempty := by
  have hdef : (cut fs N 0 el []).el =
      finishEl 0 (cutChanged N 0 el) el (el.live.map (cutRec N)) := rfl
  rw [CutOk, Classical.not_imp, Classical.not_imp] at hok
  obtain ⟨hc, ⟨r, hr, hrN⟩, hok⟩ := hok
  by_cases hhead : el.live.head? = some ExtentRec.zero
  · -- the empty record is counted as the end of the list
    obtain ⟨zs, hlive⟩ := head?_eq_some_iff.mp hhead
    have hnf : (cut fs N 0 el []).el.lNextFreeRec = 0 := by
      rw [hdef, hc, hlive]
      exact finishEl_first rfl
    refine .inl ⟨r, hr, hrN, ?_⟩
    intro x hx
    have hx' := (mem_filter.mp hx).1
    rw [ExtentList.live, hnf] at hx'
    cases hx'
  · have hstale : (∀ r ∈ el.live, r.eCpos < N) ∧ Stale 0 el := by
      rw [not_and, Classical.not_imp, Classical.not_not] at hok
      exact hok hhead
    have hs := h.spaced
    rw [← eq_dropEmpty hhead] at hs
    have hpos : ∀ r ∈ el.live, 0 < r.eLeafClusters := fun r hr => (hs.mem_bounds r hr).2.1
    have hkept : ∀ r ∈ el.live.map (cutRec N), recClusters 0 r ≠ 0 := by
      intro r hr
      obtain ⟨x, hx, rfl⟩ := mem_map.mp hr
      have h1 := hstale.1 x hx
      have h2 := hpos x hx
      have := (covers_cutRec).mpr ⟨h1, le_refl _, by omega⟩
      have h3 := this.1
      have h4 := this.2
      rw [recClusters_zero]
      omega
    have hlen : (el.live.map (cutRec N) ++ []).length = el.live.length := by simp
    have hnone : ∀ r ∈ [], recClusters 0 r = 0 := fun _ hr => absurd hr not_mem_nil
    obtain ⟨stale, hl, hpos', hst, -⟩ := finishEl_live hkept hnone hlen h.le
    rw [append_nil, ← hc, ← hdef] at hl
    obtain ⟨y, ys, hy⟩ := exists_cons_of_ne_nil (hst.mpr ⟨rfl, hstale.2⟩)
    have hdrop : dropEmpty (cut fs N 0 el []).el.live = el.live.map (cutRec N) ++ stale := by
      rw [hl]
      refine dropEmpty_pos fun r hr => ?_
      rcases mem_append.mp hr with hr | hr
      · exact hkept r hr
      · exact hpos' r hr
    -- the record that was shortened ends at the new end, and the stale one lies behind it
    obtain ⟨x, hx, hxN⟩ := cutChanged_true.mp hc
    have hs' := h'.spaced
    rw [hdrop, spaced_append] at hs'
    obtain ⟨mid, hs1, hs2⟩ := hs'
    have h1 := (hs1.mem_bounds _ (mem_map_of_mem hx)).2.2
    rw [cutRec_mid (hstale.1 x hx) hxN] at h1
    have h2 := (hs2.mem_bounds y (by rw [hy]; simp)).1
    refine .inr ⟨y, ?_, ?_⟩
    · rw [h'.nonempty_eq, hdrop, hy]
      simp
    · have h4 : x.eCpos + (N - x.eCpos) ≤ mid := h1
      omega

/-- The lists of the blocks are on the device, whatever else the blocks hold there. -/
def Holds (ebs : Nat → Option ExtentBlock) : Nat → List Node → Prop
  | 0, _ => True
  | d + 1, ks => ∀ k ∈ ks, (ebs k.eb.hBlkno).map ExtentBlock.hList = some k.eb.hList ∧
      Holds ebs d k.kids

theorem Holds.recs {ebs ebs' : Nat → Option ExtentBlock} (el : ExtentList) : ∀ {d rs ks ks'},
    List.Forall₂ (Leads ebs d) rs ks → Holds ebs' (d + 1) ks → List.Forall₂ (Leads ebs' d) rs ks' →
    treeRecs (d + 1) el ks' = treeRecs (d + 1) el ks
  | _, _, _, _, .nil, _, .nil => rfl
  | d, _, k :: ks, k' :: ks', .cons h hs, hh, .cons h' hs' => by
    obtain ⟨h1, h2⟩ := hh k (by simp)
    have hlist : k'.eb.hList = k.eb.hList := by
      rw [h.blkno, h'.eb] at h1
      exact Option.some.inj h1
    have hrest := Holds.recs el hs (fun j hj => hh j (mem_cons_of_mem _ hj)) hs'
    have hfirst : treeRecs d k'.eb.hList k'.kids = treeRecs d k.eb.hList k.kids := by
      cases d with
      | zero => rw [treeRecs, treeRecs, hlist]
      | succ d =>
        have hread := h'.kids
        rw [hlist] at hread ⊢
        exact Holds.recs _ (readKids_succ.mp h.kids) h2 (readKids_succ.mp hread)
    rw [treeRecs, flatMap_cons, hfirst]
    exact congrArg _ hrest

section Fault

variable {ks kpost : List Node} {post : List ExtentRec} {m : ExtentRec} {k : Node}
  (h : WfList fs (d + 1) right lo hi el ks)

include h

theorem WfList.not_covered (kids : ks = kpre ++ k :: kpost) {r : ExtentRec}
    (hr : r ∈ treeRecs d k.eb.hList k.kids) :
    ∀ x ∈ treeRecs (d + 1) el kpre, ¬ Covers eCpos eLeafClusters x r.eCpos := by
  intro x hx hc
  have hs := h.recs_spaced
  rw [kids, treeRecs, flatMap_append, spaced_append] at hs
  obtain ⟨b, h1, h2⟩ := hs
  have h3 := (h1.mem_bounds x hx).2.2
  have h4 := (h2.mem_bounds r (mem_append_left _ hr)).1
  have h5 := hc.2
  omega

/-- If the walk is right about the block around the new end, it is wrong about this list: the
    block is the last one, it keeps something, and there are stale slots. -/
theorem WfList.own_fault (hok : ¬ CutOk N (d + 1) el ks)
    (p : Parted el ks pre (m :: post) kpre (k :: kpost))
    (below : ∀ r ∈ pre, r.eCpos + r.eIntClusters ≤ N) (above : ∀ r ∈ post, N ≤ r.eCpos)
    (hk : CutOk N d k.eb.hList k.kids) : post = [] ∧
      (∃ r ∈ treeRecs d k.eb.hList k.kids, r.eCpos < N) ∧ Stale (d + 1) el := by
  rw [CutOk, not_and, Classical.not_imp, Classical.not_imp, Classical.not_not] at hok
  obtain ⟨-, hl, hS⟩ := hok fun j hj => by
    rw [p.kids] at hj
    rcases mem_append.mp hj with hj | hj
    · exact (h.before p below j hj).1
    · rcases mem_cons.mp hj with rfl | hj
      · exact hk
      · exact (h.behind p.step above j hj).1
  obtain ⟨hpost, hnil⟩ := h.kept_last p.step above hl
  exact ⟨hpost, hl k (by rw [p.kids, hnil]; simp), hS⟩

end Fault

/-- **When the walk is not right**, the device does not hold a well-formed tree with the
    records that should be left: what can be read there is wrong. -/
theorem cut_wrong {ebs ebs' : Nat → Option ExtentBlock} : ∀ {d right rt lo hi lo' hi' el ks ks'},
    WfList fs d right lo hi el ks → hi ≤ uint32Max → readKids ebs d el = some ks →
    ¬ CutOk N d el ks → Holds ebs' d (cut fs N d el ks).kids →
    readKids ebs' d (cut fs N d el ks).el = some ks' →
    WfList fs d rt lo' hi' (cut fs N d el ks).el ks' →
    Wrong N (treeRecs d el ks) (treeRecs d (cut fs N d el ks).el ks')
  | 0, right, rt, lo, hi, lo', hi', el, ks, ks', h, _, _, hok, _, _, h' => leaf_wrong h.1 hok h'.1
  | d + 1, right, rt, lo, hi, lo', hi', el, ks, ks', h, hhi, hread, hok, hholds, hread', h' => by
    rw [readKids_succ] at hread hread'
    cases nodeCut (N := N) h with
    | @clean pre post kpre kpost c above =>
      rw [CutOk, not_and, Classical.not_imp, Classical.not_imp] at hok
      obtain ⟨hc, hl, -⟩ := hok fun k hk => by
        rw [c.kids] at hk
        rcases mem_append.mp hk with hk | hk
        · exact (h.before c.toParted c.below k hk).1
        · exact (h.behind c.toParted above k hk).1
      exact absurd (h.kept_last c.toParted above hl).1 (c.rest_ne hc)
    | @gone pre post kpre kpost m k c above empty =>
      obtain ⟨-, -, hk⟩ := h.kid c.live c.kids c.len
      -- the block would not be gone if the walk were right about it
      have hkeep : ∃ r ∈ treeRecs d k.eb.hList k.kids, r.eCpos < N := by
        by_cases hkok : CutOk N d k.eb.hList k.kids
        · exact (h.own_fault hok c.toParted c.below above hkok).2.1
        · by_contra hno
          simp only [not_exists, not_and, not_lt] at hno
          exact hkok (cutOk_above hk hno)
      obtain ⟨r, hr, hrN⟩ := hkeep
      have hl := h.live_cleared c (cutChanged_true.mpr ⟨m, by rw [c.live]; simp,
        c.behind m (by simp)⟩) (by simp)
      rw [c.live, c.kids, forall₂_append c.len] at hread
      rw [c.left] at hholds
      rw [hl] at hread'
      refine .inl ⟨r, ?_, hrN, ?_⟩
      · rw [treeRecs, c.kids, flatMap_append]
        exact mem_append_right _ (mem_append_left _ hr)
      · rw [Holds.recs (cut fs N (d + 1) el ks).el hread.1 hholds hread']
        exact h.not_covered c.kids hr
    | @mid pre post kpre kpost m k c =>
      have hb := (h.1.tiled.spaced.mem_bounds m (by rw [c.live]; simp)).2.2
      have hint := eIntClusters_cut hhi c.start c.stop hb
      obtain ⟨-, -, hk⟩ := h.kid c.live c.kids c.len
      obtain ⟨stale, hl, hst⟩ := h.live_shortened c hhi
      -- what is read under the shortened record, and behind it
      rw [hl] at hread'
      obtain ⟨kpre', krest, rfl, hlen', hrp, hrest⟩ := forall₂_append_left hread'
      cases hrest with
      | @cons _ k' _ kstale hk' hstale =>
        rw [c.live, c.kids, forall₂_append c.len, forall₂_cons] at hread
        obtain ⟨hr1, hr2, -⟩ := hread
        rw [c.left] at hholds
        obtain ⟨hs1, hs2⟩ := hholds _ (mem_append_right _ (mem_singleton_self _))
        have hsame := Holds.recs el hr1 (fun j hj => hholds j (mem_append_left _ hj)) hrp
        have hlist : k'.eb.hList = (cut fs N d k.eb.hList k.kids).el := by
          have h1 := hk'.eb
          rw [ExtentRec.eBlkno_setIntClusters, ← hr2.blkno] at h1
          exact Option.some.inj ((congrArg (Option.map ExtentBlock.hList) h1).symm.trans hs1)
        obtain ⟨-, -, hw⟩ := h'.kid hl rfl hlen'
        have hread2 := hk'.kids
        rw [hlist] at hw hread2
        have hrecs : treeRecs (d + 1) (cut fs N (d + 1) el ks).el (kpre' ++ k' :: kstale) =
            treeRecs (d + 1) el kpre ++ (treeRecs d k'.eb.hList k'.kids ++
              treeRecs (d + 1) el kstale) := by
          rw [← hsame, treeRecs, flatMap_append]
          rfl
        have hps := h'.pairs
        rw [hl, forall₂_append hlen', forall₂_cons] at hps
        -- a stale record lies behind the shortened one, which ends at the new end
        have hbehind : ∀ x ∈ treeRecs (d + 1) el kstale, N ≤ x.eCpos := by
          intro x hx
          obtain ⟨j, hj, hx⟩ := mem_flatMap.mp hx
          obtain ⟨y, hy, _, -, hwj⟩ := forall₂_mem_right hps.2.2 j hj
          have ht := h'.1.tiled.spaced
          rw [hl, spaced_append] at ht
          obtain ⟨_, -, ht⟩ := ht
          have h1 := (ht.2.2.mem_bounds y hy).1
          have h2 := (hwj.recs_spaced.mem_bounds x hx).1
          rw [ExtentRec.eCpos_setIntClusters] at h1
          omega
        by_cases hkok : CutOk N d k.eb.hList k.kids
        · obtain ⟨hnil, -, hS⟩ := h.own_fault hok c.toParted c.below c.above hkok
          obtain ⟨y, ys, rfl⟩ := exists_cons_of_ne_nil (hst.mpr ⟨hnil, hS⟩)
          cases hstale with
          | @cons _ j _ js hj hjs =>
            rw [forall₂_cons] at hps
            obtain ⟨_, -, hwj⟩ := hps.2.2.1
            obtain ⟨x, xs, hx⟩ := exists_cons_of_ne_nil hwj.recs_ne
            have hmem : x ∈ treeRecs (d + 1) el (j :: js) := by
              rw [treeRecs, flatMap_cons, hx]
              simp
            refine .inr ⟨x, ?_, hbehind x hmem⟩
            rw [hrecs]
            exact mem_append_right _ (mem_append_right _ hmem)
        · have ih := cut_wrong hk (by omega) hr2.kids hkok hs2 hread2 hw
          rw [← hlist] at ih
          rcases ih with ⟨r, hr, hrN, hno⟩ | ⟨x, hx, hxN⟩
          · refine .inl ⟨r, ?_, hrN, ?_⟩
            · rw [treeRecs, c.kids, flatMap_append]
              exact mem_append_right _ (mem_append_left _ hr)
            · rw [hrecs]
              intro x hx hcov
              rcases mem_append.mp hx with hx | hx
              · exact h.not_covered c.kids hr x hx hcov
              · rcases mem_append.mp hx with hx | hx
                · exact hno x hx hcov
                · have h1 := hbehind x hx
                  have h2 := hcov.1
                  omega
          · refine .inr ⟨x, ?_, hxN⟩
            rw [hrecs]
            exact mem_append_right _ (mem_append_left _ hx)

end Ocfs2Tools
