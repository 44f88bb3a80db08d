import Ocfs2Tools.Device

/-!
# Chains of groups and `break_loop` of `pass0.c`

A chain starts at a record of an allocator's inode and goes on through `bg_next_group`.
`break_loop` follows one until it comes back to a group, and then means to end it at the group
it read last. It writes that descriptor to the block it came back to.
-/

namespace Ocfs2Tools.Pass0

open List Function

/-- `struct ocfs2_group_desc`. -/
structure GroupDesc where
  bgBlkno : Nat
  bgNextGroup : Nat
  bgBits : Nat
  bgFreeBitsCount : Nat
deriving DecidableEq, Repr

/-- The blocks that can be read as a group descriptor. -/
abbrev Disk : Type := Nat → Option GroupDesc

/-- The groups from block `b` on, up to the one that leads to `stop`. -/
def Linked (d : Disk) (stop : Nat) : Nat → List Nat → Prop
  | b, [] => b = stop
  | b, c :: chain => b = c ∧ c ≠ 0 ∧ ∃ gd, d c = some gd ∧ Linked d stop gd.bgNextGroup chain

/-- The loop of `break_loop`, with the turns that are left. The list has room for `maxDepth`
    blocks, and a write behind it is undefined. -/
def breakLoopFrom (maxDepth : Nat) : Nat → List Nat → Nat → Disk → Option (Option Errcode × Disk)
  | 0, _, _, d => some (none, d)
  | turns + 1, list, blkno, d =>
    if blkno = 0 then some (none, d)
    else if list.length = maxDepth then none
    else
      match d blkno with
      | none => some (some .io, d)
      | some gd =>
        if gd.bgNextGroup ∈ list ++ [blkno] then
          some (none, update d gd.bgNextGroup (some { gd with bgNextGroup := 0 }))
        else breakLoopFrom maxDepth turns (list ++ [blkno]) gd.bgNextGroup d

/-- `break_loop` for a chain that starts at `cBlkno`. -/
def breakLoop (maxDepth cBlkno : Nat) (d : Disk) : Option (Option Errcode × Disk) :=
  breakLoopFrom maxDepth (maxDepth + 1) [] cBlkno d

variable {d : Disk} {stop last : Nat} {gd : GroupDesc}

theorem Linked.leads_back : ∀ {pre b}, Linked d stop b (pre ++ [last]) →
    ∃ gd, d last = some gd ∧ gd.bgNextGroup = stop
  | [], _, ⟨_, _, gd, hgd, hstop⟩ => ⟨gd, hgd, hstop⟩
  | _ :: _, _, ⟨_, _, _, _, h⟩ => h.leads_back

theorem Linked.ne_zero : ∀ {chain b}, Linked d stop b chain → ∀ c ∈ chain, c ≠ 0
  | c :: _, _, ⟨_, hc, _, _, h⟩, x, hx => by
    rcases mem_cons.mp hx with rfl | hx
    · exact hc
    · exact h.ne_zero x hx

theorem breakLoopFrom_eq {maxDepth : Nat} (hlast : d last = some gd) : ∀ pre {turns b list},
    Linked d stop b (pre ++ [last]) →
    stop ∈ list ++ (pre ++ [last]) → (list ++ (pre ++ [last])).Nodup →
    (list ++ (pre ++ [last])).length ≤ maxDepth → pre.length < turns →
    breakLoopFrom maxDepth turns list b d =
      some (none, update d stop (some { gd with bgNextGroup := 0 }))
  | pre, 0, _, _, _, _, _, _, hn => by omega
  | [], turns + 1, b, list, ⟨hb, h0, gd', hgd, hstop⟩, hmem, _, hlen, _ => by
    subst hb
    obtain rfl := Option.some.inj (hlast.symm.trans hgd)
    have hnext : gd.bgNextGroup = stop := hstop
    rw [nil_append] at hmem hlen
    rw [length_append, length_singleton] at hlen
    rw [breakLoopFrom, if_neg h0, if_neg (by omega), hgd]
    dsimp only
    rw [hnext, if_pos hmem]
  | c :: pre, turns + 1, b, list, ⟨hb, h0, gd', hgd, h⟩, hmem, hnd, hlen, hn => by
    subst hb
    have hlist : list ++ (b :: pre ++ [last]) = (list ++ [b]) ++ (pre ++ [last]) := by simp
    have hlen' := hlen
    rw [hlist] at hmem hnd hlen
    -- the next group is a new one
    have hnew : gd'.bgNextGroup ∉ list ++ [b] := by
      intro hin
      refine (nodup_append.mp hnd).2.2 _ hin _ ?_ rfl
      cases pre with
      | nil => exact h.1 ▸ mem_cons_self
      | cons x pre => exact h.1 ▸ mem_cons_self
    rw [length_append, cons_append, length_cons] at hlen'
    rw [breakLoopFrom, if_neg h0, if_neg (by omega), hgd]
    dsimp only
    rw [if_neg hnew]
    exact breakLoopFrom_eq hlast pre h hmem hnd hlen (Nat.lt_of_succ_lt_succ hn)

theorem Linked.ended (hlast : d last = some gd) : ∀ {pre b},
    Linked d stop b (pre ++ [last]) → (pre ++ [last]).Nodup →
    Linked (update d last (some { gd with bgNextGroup := 0 })) 0 b (pre ++ [last])
  | [], _, ⟨hb, h0, _⟩, _ => ⟨hb, h0, _, update_self .., rfl⟩
  | c :: pre, _, ⟨hb, h0, gd', hgd, h⟩, hnd => by
    rw [cons_append, nodup_cons] at hnd
    refine ⟨hb, h0, gd', ?_, h.ended hlast hnd.2⟩
    rw [update_of_ne (fun hc => hnd.1 (by simp [hc])), hgd]

/-- **`break_loop` ends a chain that comes back to `stop` at its last group exactly if** the last
    group leads to itself. -/
theorem breakLoop_ends_iff (maxDepth : Nat) (d : Disk) (cBlkno stop last : Nat) (pre : List Nat)
    (h : Linked d stop cBlkno (pre ++ [last])) (hnd : (pre ++ [last]).Nodup)
    (hcycle : stop ∈ pre ++ [last]) (hlen : (pre ++ [last]).length ≤ maxDepth) :
    (∃ d', breakLoop maxDepth cBlkno d = some (none, d') ∧ Linked d' 0 cBlkno (pre ++ [last]) ∧
      d' = update d last ((d last).map ({ · with bgNextGroup := 0 }))) ↔ stop = last := by
  obtain ⟨gd, hgd, hnext⟩ := h.leads_back
  have hturns : pre.length < maxDepth + 1 := by
    rw [length_append] at hlen
    omega
  have hrun : breakLoop maxDepth cBlkno d =
      some (none, update d stop (some { gd with bgNextGroup := 0 })) :=
    breakLoopFrom_eq hgd pre h hcycle hnd hlen hturns
  rw [hrun, hgd]
  constructor
  · rintro ⟨d', hd', -, rfl⟩
    by_contra hne
    -- the last group is still the one that leads back
    have hat : update d stop _ last = update d last _ last :=
      congrFun (congrArg Prod.snd (Option.some.inj hd')) last
    rw [update_of_ne (Ne.symm hne), hgd, update_self] at hat
    exact h.ne_zero stop hcycle (hnext.symm.trans (congrArg GroupDesc.bgNextGroup
      (Option.some.inj hat)))
  · rintro rfl
    exact ⟨_, rfl, h.ended hgd hnd, rfl⟩

/-- Three groups, of which the last leads to `back`. -/
def threeGroups (back : Nat) : Disk := fun b =>
  if b = 10 then some ⟨10, 20, 64, 7⟩ else if b = 20 then some ⟨20, 30, 64, 8⟩
  else if b = 30 then some ⟨30, back, 64, 9⟩ else none

/-- The second group gets the descriptor of the third, and the chain is lost behind it. -/
theorem breakLoop_overwrites : Linked (threeGroups 20) 20 10 [10, 20, 30] ∧
    ∃ d', breakLoop 8 10 (threeGroups 20) = some (none, d') ∧ d' 20 = some ⟨30, 0, 64, 9⟩ ∧
      d' 30 = some ⟨30, 20, 64, 9⟩ :=
  ⟨⟨rfl, by decide, _, rfl, rfl, by decide, _, rfl, rfl, by decide, _, rfl, rfl⟩, _, rfl, rfl, rfl⟩

theorem breakLoop_ends_self : ∃ d', breakLoop 8 10 (threeGroups 30) = some (none, d') ∧
    Linked d' 0 10 [10, 20, 30] ∧
    d' = update (threeGroups 30) 30 ((threeGroups 30 30).map ({ · with bgNextGroup := 0 })) :=
  (breakLoop_ends_iff 8 (threeGroups 30) 10 30 30 [10, 20]
    ⟨rfl, by decide, _, rfl, rfl, by decide, _, rfl, rfl, by decide, _, rfl, rfl⟩
    (by decide) (by decide) (by decide)).mpr rfl

end Ocfs2Tools.Pass0
