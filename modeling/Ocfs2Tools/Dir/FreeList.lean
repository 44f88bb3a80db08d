import Ocfs2Tools.Dir.FreeSpace

/-!
# The list of blocks with free space, over any calls

`Good` is what building the index establishes. Removing a name keeps it, and so does adding one
as long as every block is `Roomy`.
-/

namespace Ocfs2Tools.DirSpace

open List Prog

open Dir (dirRecLen)

variable {fs : Filesys} {env : Env} {d d' : Directory} {bs bs' : List (Nat × Block)}
  {es es' : List Dirent} {de : Dirent} {b : Block} {name : Name} {ino blkno head : Nat}
  {x : Nat × Block} {r : Except Errcode Unit} {c : Block}

/-! ### The list -/

/-- The list of blocks that starts at a block number, where 0 is the end. -/
inductive FreeChain (bs : List (Nat × Block)) : Nat → List Nat → Prop where
  | nil : FreeChain bs 0 []
  | cons {blkno : Nat} {b : Block} {l : List Nat} (mem : (blkno, b) ∈ bs)
      (rest : FreeChain bs b.trailer.dbFreeNext l) : FreeChain bs blkno (blkno :: l)

/-- The list has, once each, the blocks whose trailer says that there is free space. -/
def FreeListOk (head : Nat) (bs : List (Nat × Block)) : Prop :=
  ∃ l, FreeChain bs head l ∧ l.Nodup ∧ ∀ x ∈ bs, x.1 ∈ l ↔ x.2.trailer.dbFreeRecLen ≠ 0

/-- What the trailers and the list should be like. -/
structure SpaceOk (d : Directory) : Prop where
  hint : ∀ x ∈ d.blocks, x.2.trailer.dbFreeRecLen ≤ findMaxRecLen x.2.entries
  list : FreeListOk d.drFreeBlk d.blocks

theorem FreeChain.mem {l : List Nat} (h : FreeChain bs head l) : ∀ n ∈ l, ∃ b, (n, b) ∈ bs := by
  induction h with
  | nil =>
    intro n hn
    cases hn
  | cons mem rest ih => exact forall_mem_cons.mpr ⟨⟨_, mem⟩, ih⟩

theorem FreeChain.congr {l : List Nat} (h : FreeChain bs head l) (hnext : ∀ x ∈ bs, x.1 ∈ l →
      ∃ b, (x.1, b) ∈ bs' ∧ b.trailer.dbFreeNext = x.2.trailer.dbFreeNext) :
    FreeChain bs' head l := by
  induction h with
  | nil => exact .nil
  | cons mem rest ih =>
    obtain ⟨b', hmem, heq⟩ := hnext _ mem mem_cons_self
    refine .cons hmem ?_
    rw [heq]
    exact ih fun x hx hl => hnext x hx (mem_cons_of_mem _ hl)

def trailers (bs : List (Nat × Block)) : List (Nat × Trailer) := bs.map fun x => (x.1, x.2.trailer)

theorem exists_of_trailers (heq : trailers bs' = trailers bs) (hx : x ∈ bs') :
    ∃ b, (x.1, b) ∈ bs ∧ b.trailer = x.2.trailer := by
  have hmem : (x.1, x.2.trailer) ∈ trailers bs := by
    rw [← heq]
    exact mem_map_of_mem hx
  obtain ⟨⟨n, c⟩, hy, hyx⟩ := mem_map.mp hmem
  obtain ⟨hn, hc⟩ := Prod.mk.inj hyx
  exact ⟨c, hn ▸ hy, hc⟩

theorem FreeListOk.of_trailers (h : FreeListOk head bs) (heq : trailers bs' = trailers bs) :
    FreeListOk head bs' := by
  obtain ⟨l, hchain, hnd, hiff⟩ := h
  refine ⟨l, hchain.congr ?_, hnd, ?_⟩
  · intro x hx _
    obtain ⟨b', hmem, htr⟩ := exists_of_trailers heq.symm hx
    exact ⟨b', hmem, by rw [htr]⟩
  · intro x hx
    obtain ⟨b', hmem, htr⟩ := exists_of_trailers heq hx
    rw [← htr]
    exact hiff _ hmem

/-! ### The invariant -/

structure Good (d : Directory) : Prop where
  nodup : (d.blocks.map Prod.fst).Nodup
  nonzero : ∀ x ∈ d.blocks, x.1 ≠ 0
  valid : ∀ x ∈ d.blocks, Valid x.2.entries
  trailer : ∀ x ∈ d.blocks, TrailerOk x.2
  list : FreeListOk d.drFreeBlk d.blocks

theorem Good.spaceOk (h : Good d) : SpaceOk d := ⟨fun x hx => (h.trailer x hx).hint, h.list⟩

theorem Good.append (h : Good ⟨head, bs⟩) (hne : blkno ≠ 0) (hfresh : ∀ x ∈ bs, x.1 ≠ blkno)
    (hv : Valid b.entries) (htr : TrailerOk b) (hnext : b.trailer.dbFreeNext = head ∨
      b.trailer.dbFreeRecLen = 0) :
    Good ⟨if b.trailer.dbFreeRecLen = 0 then head else blkno, bs ++ [(blkno, b)]⟩ := by
  have hall : ∀ {P : Nat × Block → Prop}, (∀ x ∈ bs, P x) → P (blkno, b) →
      ∀ x ∈ bs ++ [(blkno, b)], P x :=
    fun hbs hb => forall_mem_append.mpr ⟨hbs, forall_mem_singleton.mpr hb⟩
  refine ⟨?_, hall h.nonzero hne, hall h.valid hv, hall h.trailer htr, ?_⟩
  · rw [map_append]
    refine nodup_append.mpr ⟨h.nodup, nodup_cons.mpr ⟨by simp, nodup_nil⟩, ?_⟩
    intro n hn m hm heq
    obtain ⟨x, hx, rfl⟩ := mem_map.mp hn
    exact hfresh x hx (heq.trans (mem_singleton.mp hm))
  · obtain ⟨l, hchain, hnd, hiff⟩ := h.list
    have hold : FreeChain (bs ++ [(blkno, b)]) head l :=
      hchain.congr fun x hx _ => ⟨x.2, mem_append_left _ hx, rfl⟩
    have hnot : blkno ∉ l := by
      intro hl
      obtain ⟨c, hc⟩ := hchain.mem blkno hl
      exact hfresh _ hc rfl
    by_cases h0 : b.trailer.dbFreeRecLen = 0
    · refine ⟨l, by rw [if_pos h0]; exact hold, hnd, hall hiff ?_⟩
      exact ⟨fun hl => absurd hl hnot, fun hf => absurd h0 hf⟩
    · refine ⟨blkno :: l, ?_, nodup_cons.mpr ⟨hnot, hnd⟩, hall ?_ ?_⟩
      · rw [if_neg h0]
        refine .cons (mem_append_right _ mem_cons_self) ?_
        rw [hnext.resolve_right h0]
        exact hold
      · intro x hx
        rw [← hiff x hx, mem_cons]
        exact ⟨fun hl => hl.resolve_left (hfresh x hx), .inr⟩
      · exact ⟨fun _ => h0, fun _ => mem_cons_self⟩

/-! ### Building the index -/

theorem valid_of_check {toff : Nat} : ∀ {es offset},
    checkDirTrailerSpace toff offset es = .ok () → Valid es := by
  intro es
  induction es with
  | nil =>
    intro offset _ e he
    cases he
  | cons de rest ih =>
    intro offset hrun
    rw [checkDirTrailerSpace] at hrun
    by_cases hc : checkDirEntry de = true
    · rw [hc] at hrun
      by_cases hs : toff < offset + (if de.inode ≠ 0 then dirRecLen de.nameLen else dirRecLen 1) ∧
          de.inode ≠ 0
      · rw [if_pos hs] at hrun
        cases hrun
      · rw [if_neg hs] at hrun
        refine (ih hrun).cons fun _ => ?_
        simp only [checkDirEntry, Bool.and_eq_true, decide_eq_true_eq] at hc
        exact hc.2
    · rw [Bool.not_eq_true] at hc
      rw [hc] at hrun
      cases hrun

theorem dirTrailerFunc_good (h : Good ⟨head, bs⟩) (hne : blkno ≠ 0) (hfresh : ∀ x ∈ bs, x.1 ≠ blkno)
    (hrun : dirTrailerFunc fs head blkno es = .ok x) : Good ⟨x.1, bs ++ [(blkno, x.2)]⟩ := by
  unfold dirTrailerFunc at hrun
  cases hchk : checkDirTrailerSpace (dirTrailerBlkOff fs) 0 es with
  | error e =>
    rw [hchk] at hrun
    cases hrun
  | ok u =>
    rw [hchk] at hrun
    have hv := valid_of_check hchk
    by_cases hm : findMaxRecLen es = 0
    · rw [if_neg (not_not.mpr hm)] at hrun
      cases hrun
      exact @Good.append bs ⟨es, ⟨0, 0⟩⟩ blkno head h hne hfresh hv ⟨.inl rfl, Nat.zero_le _⟩
        (.inr rfl)
    · rw [if_pos hm] at hrun
      cases hrun
      have := @Good.append bs ⟨es, ⟨findMaxRecLen es, head⟩⟩ blkno head h hne hfresh hv
        ⟨findMaxRecLen_cases, le_refl _⟩ (.inl rfl)
      rwa [if_neg hm] at this

theorem initDirTrailers_good : ∀ {dir head bs y}, Good ⟨head, bs⟩ →
    (∀ x ∈ dir, x.1 ≠ 0) → (bs.map Prod.fst ++ dir.map Prod.fst).Nodup →
    initDirTrailers fs head dir = .ok y → Good ⟨y.1, bs ++ y.2⟩ := by
  intro dir
  induction dir with
  | nil =>
    intro head bs y h _ _ hrun
    cases hrun
    rw [append_nil]
    exact h
  | cons x rest ih =>
    obtain ⟨blkno, es⟩ := x
    intro head bs y h hne hnd hrun
    rw [initDirTrailers] at hrun
    cases hfun : dirTrailerFunc fs head blkno es with
    | error e =>
      rw [hfun] at hrun
      cases hrun
    | ok x =>
      rw [hfun] at hrun
      dsimp only [bind, Except.bind] at hrun
      cases hrec : initDirTrailers fs x.1 rest with
      | error e =>
        rw [hrec] at hrun
        cases hrun
      | ok z =>
        rw [hrec] at hrun
        cases hrun
        have hfresh : ∀ x ∈ bs, x.1 ≠ blkno := by
          intro x hx heq
          exact (nodup_append.mp hnd).2.2 x.1 (mem_map_of_mem hx) blkno mem_cons_self heq
        have hgood := dirTrailerFunc_good h (hne _ mem_cons_self) hfresh hfun
        have := ih hgood (fun x hx => hne x (mem_cons_of_mem _ hx)) (by
          rw [map_append, append_assoc]
          exact hnd) hrec
        rwa [append_assoc] at this

theorem dxDirBuild_good {dir : List (Nat × List Dirent)} (hne : ∀ x ∈ dir, x.1 ≠ 0)
    (hnd : (dir.map Prod.fst).Nodup) (hrun : dxDirBuild fs dir = .ok d) : Good d := by
  unfold dxDirBuild at hrun
  cases hinit : initDirTrailers fs 0 dir with
  | error e =>
    rw [hinit] at hrun
    cases hrun
  | ok y =>
    rw [hinit] at hrun
    cases hrun
    have hempty : Good ⟨0, []⟩ :=
      ⟨nodup_nil, by simp, by simp, by simp, [], .nil, nodup_nil, by simp⟩
    exact initDirTrailers_good hempty hne hnd hinit

/-! ### Adding a name -/

/-- What the index and the allocator are relied on for: a new block is none of the directory,
    and a record that is found is there. -/
structure Env.Ok (env : Env) : Prop where
  fresh : ∀ d blkno, env.newBlock d = .ok blkno → blkno ≠ 0 ∧ ∀ x ∈ d.blocks, x.1 ≠ blkno
  found : ∀ d name x b, env.search d name = .ok x → (x.1, b) ∈ d.blocks → x.2 < b.entries.length

/-- Every block of the directory can take a name of this length, or has no room for it. -/
def AllRoomy (d : Directory) (name : Name) : Prop :=
  ∀ x ∈ d.blocks, Roomy (dirRecLen name.length) x.2

instance (d : Directory) (name : Name) : Decidable (AllRoomy d name) :=
  inferInstanceAs (Decidable (∀ x ∈ d.blocks, _))

theorem linkBlocks_spec : ∀ {bs},
    (∀ x ∈ bs, Valid x.2.entries ∧ TrailerOk x.2 ∧ Roomy (dirRecLen name.length) x.2) →
    trailers (linkBlocks fs name ino bs).1 = trailers bs ∧
      (∀ x ∈ (linkBlocks fs name ino bs).1, Valid x.2.entries ∧ TrailerOk x.2) ∧
      ((linkBlocks fs name ino bs).2 = .ok false →
        ∀ x ∈ (linkBlocks fs name ino bs).1, Roomy (dirRecLen name.length) x.2) := by
  intro bs
  induction bs with
  | nil =>
    intro _
    refine ⟨rfl, fun x hx => ?_, fun _ x hx => ?_⟩ <;> cases hx
  | cons x rest ih =>
    obtain ⟨blkno, b⟩ := x
    intro h
    obtain ⟨hv, htr, hroom⟩ := h _ mem_cons_self
    have hrest := fun y hy => h y (mem_cons_of_mem _ hy)
    rw [linkBlocks]
    split
    · -- a corrupt record: nothing is written
      refine ⟨rfl, fun y hy => ⟨(h y hy).1, (h y hy).2.1⟩, nofun⟩
    · next es' hrun =>
      obtain ⟨htr', hv'⟩ := htr.put hv hroom hrun
      exact ⟨rfl, forall_mem_cons.mpr ⟨⟨hv', htr'⟩,
        fun y hy => ⟨(hrest y hy).1, (hrest y hy).2.1⟩⟩, nofun⟩
    · next es' hrun =>
      obtain ⟨htr', hv', hroom'⟩ := htr.pass hv hroom hrun
      obtain ⟨hmap, hgood, hlater⟩ := ih hrest
      exact ⟨congrArg ((blkno, b.trailer) :: ·) hmap, forall_mem_cons.mpr ⟨⟨hv', htr'⟩, hgood⟩,
        fun hf => forall_mem_cons.mpr ⟨hroom', hlater hf⟩⟩

theorem keys_of_trailers (heq : trailers bs' = trailers bs) :
    bs'.map Prod.fst = bs.map Prod.fst := by
  have := congrArg (List.map Prod.fst) heq
  rw [trailers, trailers, map_map, map_map] at this
  exact this

theorem ofExcept_run {α : Type} (x : Except Errcode α) (d : Directory) :
    (ofExcept x : Op α) d = some (x, d) := by
  cases x with
  | error e => rfl
  | ok a => rfl

theorem Good.iterate (h : Good d) (hroom : AllRoomy d name) {r : Except Errcode Bool}
    (hrun : dirIterateLink fs name ino d = some (r, d')) :
    Good d' ∧ (r = .ok false → AllRoomy d' name) := by
  obtain ⟨hmap, hgood, hlater⟩ := @linkBlocks_spec fs name ino d.blocks fun x hx =>
    ⟨h.valid x hx, h.trailer x hx, hroom x hx⟩
  rw [dirIterateLink, bind_ok (get_run d), bind_ok (modify_run _ _), ofExcept_run] at hrun
  cases hrun
  refine ⟨⟨?_, ?_, fun x hx => (hgood x hx).1, fun x hx => (hgood x hx).2, h.list.of_trailers hmap⟩,
    hlater⟩
  · rw [keys_of_trailers hmap]
    exact h.nodup
  · intro x hx
    obtain ⟨b', hmem, _⟩ := exists_of_trailers hmap hx
    exact h.nonzero (x.1, b') hmem

theorem dxDirInsertEntry_same (hrun : dxDirInsertEntry env name d = some (r, d')) : d' = d := by
  rw [dxDirInsertEntry, bind_ok (get_run d)] at hrun
  cases hins : env.insertEntry d name with
  | none =>
    rw [hins] at hrun
    cases hrun
    rfl
  | some e =>
    rw [hins] at hrun
    cases hrun
    rfl

theorem Good.expand (h : Good d) (henv : env.Ok) (hroom : AllRoomy d name)
    (hrun : expandDir env fs d = some (r, d')) : Good d' ∧ AllRoomy d' name := by
  rw [expandDir, bind_ok (get_run d)] at hrun
  cases hnew : env.newBlock d with
  | error e =>
    rw [hnew] at hrun
    cases hrun
    exact ⟨h, hroom⟩
  | ok blkno =>
    rw [hnew] at hrun
    cases hrun
    obtain ⟨hne, hfresh⟩ := henv.fresh d blkno hnew
    have hv : Valid [⟨0, dirTrailerBlkOff fs, []⟩] := by
      intro e he hi
      rw [mem_singleton.mp he] at hi
      exact absurd rfl hi
    refine ⟨@Good.append d.blocks ⟨[⟨0, dirTrailerBlkOff fs, []⟩], ⟨0, 0⟩⟩ blkno d.drFreeBlk h hne
      hfresh hv ⟨.inl rfl, Nat.zero_le _⟩ (.inr rfl), ?_⟩
    exact forall_mem_append.mpr ⟨hroom, forall_mem_singleton.mpr (.inr (.inl rfl))⟩

theorem Good.link (h : Good d) (henv : env.Ok) (hroom : AllRoomy d name)
    (hrun : link env fs name ino d = some (r, d')) : Good d' := by
  unfold DirSpace.link at hrun
  split at hrun
  · cases hrun
    exact h
  rcases bind_cases hrun with ⟨e, hrun₁, -⟩ | ⟨done, d₁, hrun₁, hrun⟩
  · exact (h.iterate hroom hrun₁).1
  obtain ⟨h₁, hroom₁⟩ := h.iterate hroom hrun₁
  cases done with
  | true => exact dxDirInsertEntry_same hrun ▸ h₁
  | false =>
    rcases bind_cases hrun with ⟨e, hexp, -⟩ | ⟨_, d₂, hexp, hrun⟩
    · exact (h₁.expand henv (hroom₁ rfl) hexp).1
    obtain ⟨h₂, hroom₂⟩ := h₁.expand henv (hroom₁ rfl) hexp
    rcases bind_cases hrun with ⟨e, hrun₃, -⟩ | ⟨done, d₃, hrun₃, hrun⟩
    · exact (h₂.iterate hroom₂ hrun₃).1
    have h₃ := (h₂.iterate hroom₂ hrun₃).1
    cases done with
    | true => exact dxDirInsertEntry_same hrun ▸ h₃
    | false =>
      cases hrun
      exact h₃

/-! ### Removing a name -/

theorem deleteEntry_spec {es pde i es'} (hrun : deleteEntry pde i es = some es')
    (hv : Valid (pde.toList ++ es)) (hi : i < es.length) :
    Valid es' ∧ ∃ e ∈ es', dirRecLen 1 ≤ figureDirentHole e := by
  induction es generalizing pde i es' with
  | nil => cases hi
  | cons de rest ih =>
    have hchk : checkDirEntry de = true := by
      by_contra hc
      cases i <;> cases pde <;> (rw [deleteEntry, if_neg hc] at hrun; cases hrun)
    have hlen : dirRecLen 1 ≤ de.recLen := by
      simp only [checkDirEntry, Bool.and_eq_true, decide_eq_true_eq] at hchk
      exact hchk.1.1
    cases i with
    | zero =>
      cases pde with
      | none =>
        rw [deleteEntry, if_pos hchk] at hrun
        cases hrun
        exact ⟨hv.tail.cons fun h0 => absurd rfl h0, _, mem_cons_self, hlen⟩
      | some p =>
        rw [deleteEntry, if_pos hchk] at hrun
        cases hrun
        have hp : p.inode ≠ 0 → dirRecLen p.nameLen ≤ p.recLen := hv p mem_cons_self
        refine ⟨hv.tail.tail.cons fun h0 => le_trans (hp h0) (Nat.le_add_right _ _), _,
          mem_cons_self, ?_⟩
        rw [hole_grow hp]
        omega
    | succ i =>
      rw [deleteEntry, if_pos hchk] at hrun
      obtain ⟨es'', hrec, rfl⟩ := Option.map_eq_some_iff.mp hrun
      have hv' : Valid (de :: rest) := fun e he => hv e (mem_append_right _ he)
      obtain ⟨hv'', e, he, hle⟩ := ih hrec hv' (Nat.lt_of_succ_lt_succ hi)
      exact ⟨forall_mem_append.mpr ⟨fun x hx => hv x (mem_append_left _ hx), hv''⟩, e,
        mem_append_right _ he, hle⟩

theorem Good.unique (h : Good d) (hb : (blkno, b) ∈ d.blocks) (hc : (blkno, c) ∈ d.blocks) :
    b = c := by
  have := inj_on_of_nodup_map h.nodup hb hc rfl
  exact congrArg Prod.snd this

theorem mem_writeBlock (hx : x ∈ writeBlock bs blkno b) :
    x = (blkno, b) ∨ x.1 ≠ blkno ∧ x ∈ bs := by
  obtain ⟨y, hy, rfl⟩ := mem_map.mp hx
  by_cases hn : y.1 = blkno
  · exact .inl (if_pos hn)
  · rw [if_neg hn]
    exact .inr ⟨hn, hy⟩

theorem forall_mem_writeBlock {P : Nat × Block → Prop} (hb : P (blkno, b)) (h : ∀ x ∈ bs, P x) :
    ∀ x ∈ writeBlock bs blkno b, P x :=
  fun x hx => (mem_writeBlock hx).elim (fun heq => heq ▸ hb) fun hold => h x hold.2

theorem writeBlock_self (hc : (blkno, c) ∈ bs) : (blkno, b) ∈ writeBlock bs blkno b :=
  mem_map.mpr ⟨_, hc, if_pos rfl⟩

theorem writeBlock_other (hx : x ∈ bs) (hne : x.1 ≠ blkno) : x ∈ writeBlock bs blkno b :=
  mem_map.mpr ⟨x, hx, if_neg hne⟩

theorem writeBlock_keys : (writeBlock bs blkno b).map Prod.fst = bs.map Prod.fst := by
  rw [writeBlock, map_map]
  apply map_congr_left
  intro x _
  by_cases hn : x.1 = blkno
  · simp [hn]
  · simp [hn]

theorem Good.free (h : Good d) (hmem : (blkno, b) ∈ d.blocks)
    (hlarge : ∃ e ∈ es', dirRecLen 1 ≤ figureDirentHole e) :
    FreeListOk (freeEntry d.drFreeBlk blkno es' b.trailer).1
      (writeBlock d.blocks blkno (freeEntry d.drFreeBlk blkno es' b.trailer).2) := by
  obtain ⟨l, hchain, hnd, hiff⟩ := h.list
  have hmax : findMaxRecLen es' ≠ 0 := by
    have := (le_findMaxRecLen (le_refl _)).mpr hlarge
    have hpos : 0 < dirRecLen 1 := by decide
    omega
  have hin := hiff _ hmem
  unfold freeEntry
  split
  · next h0 =>
    have hnot : blkno ∉ l := fun hl => hin.mp hl h0
    refine ⟨blkno :: l, .cons (writeBlock_self hmem) ?_, nodup_cons.mpr ⟨hnot, hnd⟩, ?_⟩
    · refine hchain.congr fun x hx hl => ⟨x.2, writeBlock_other hx ?_, rfl⟩
      intro heq
      exact hnot (heq ▸ hl)
    · intro x hx
      rcases mem_writeBlock hx with rfl | ⟨hne, hold⟩
      · exact ⟨fun _ => hmax, fun _ => mem_cons_self⟩
      · rw [← hiff x hold, mem_cons]
        exact ⟨fun hl => hl.resolve_left hne, .inr⟩
  · next h0 =>
    refine ⟨l, hchain.congr ?_, hnd, ?_⟩
    · intro x hx _
      by_cases hn : x.1 = blkno
      · subst hn
        rw [← h.unique hmem hx]
        exact ⟨_, writeBlock_self hmem, rfl⟩
      · exact ⟨x.2, writeBlock_other hx hn, rfl⟩
    · intro x hx
      rcases mem_writeBlock hx with rfl | ⟨_, hold⟩
      · exact ⟨fun _ => hmax, fun _ => hin.mpr h0⟩
      · exact hiff x hold

theorem freeEntry_block (drFreeBlk : Nat) (es' : List Dirent) (t : Trailer) :
    (freeEntry drFreeBlk blkno es' t).2.entries = es' ∧
      (freeEntry drFreeBlk blkno es' t).2.trailer.dbFreeRecLen = findMaxRecLen es' := by
  unfold freeEntry
  split
  · exact ⟨rfl, rfl⟩
  · exact ⟨rfl, rfl⟩

theorem Good.unlink (h : Good d) (henv : env.Ok) (hrun : unlinkDx env name d = some (r, d')) :
    Good d' := by
  rw [unlinkDx, bind_ok (get_run d)] at hrun
  cases hsearch : env.search d name with
  | error e =>
    rw [hsearch] at hrun
    cases hrun
    exact h
  | ok found =>
    rw [hsearch, bind_ok (ofExcept_run _ d)] at hrun
    cases hlook : d.blocks.lookup found.1 with
    | none =>
      rw [hlook] at hrun
      cases hrun
      exact h
    | some b =>
      rw [hlook] at hrun
      dsimp only at hrun
      cases hdel : deleteEntry none found.2 b.entries with
      | none =>
        rw [hdel] at hrun
        cases hrun
        exact h
      | some es' =>
        rw [hdel] at hrun
        cases hrun
        have hmem : (found.1, b) ∈ d.blocks := by
          obtain ⟨l₁, l₂, heq, -⟩ := lookup_eq_some_iff.mp hlook
          simp [heq]
        obtain ⟨hv, hlarge⟩ := deleteEntry_spec hdel (h.valid _ hmem)
          (henv.found d name found b hsearch hmem)
        obtain ⟨hes, hhint⟩ := @freeEntry_block found.1 d.drFreeBlk es' b.trailer
        refine ⟨?_, forall_mem_writeBlock (h.nonzero (found.1, b) hmem) h.nonzero,
          forall_mem_writeBlock (by dsimp only; rwa [hes]) h.valid,
            forall_mem_writeBlock ⟨?_, ?_⟩ h.trailer,
          h.free hmem hlarge⟩
        · rw [writeBlock_keys]
          exact h.nodup
        · rw [hhint]
          exact findMaxRecLen_cases
        · rw [hhint, hes]

/-! ### Any calls -/

/-- The directories that calls lead to, after the index was built; `P` is what is known of the
    directory and the name at each `ocfs2_link`. Calls may fail, and what the index and the
    allocator give back may change from call to call. -/
inductive Calls (fs : Filesys) (P : Directory → Name → Prop) : Directory → Prop where
  | build (dir : List (Nat × List Dirent)) (d : Directory)
      (ends : ∀ x ∈ dir, (x.2.map Dirent.recLen).sum = dirTrailerBlkOff fs)
      (nodup : (dir.map Prod.fst).Nodup) (nonzero : ∀ x ∈ dir, x.1 ≠ 0)
      (run : dxDirBuild fs dir = .ok d) : Calls fs P d
  | link {d : Directory} (env : Env) (name : Name) (ino : Nat) (r : Except Errcode Unit)
      (d' : Directory) (before : Calls fs P d) (ok : env.Ok) (known : P d name)
      (run : link env fs name ino d = some (r, d')) : Calls fs P d'
  | unlink {d : Directory} (env : Env) (name : Name) (r : Except Errcode Unit) (d' : Directory)
      (before : Calls fs P d) (ok : env.Ok) (run : unlinkDx env name d = some (r, d')) :
      Calls fs P d'

theorem Calls.good (h : Calls fs AllRoomy d) : Good d := by
  induction h with
  | build dir d ends nodup nonzero run => exact dxDirBuild_good nonzero nodup run
  | link env name ino r d' before ok known run ih => exact ih.link ok known run
  | unlink env name r d' before ok run ih => exact ih.unlink ok run

/-- The trailers and the list are in order after any calls, as long as every name finds all
    blocks `Roomy`. -/
theorem calls_space_ok (fs : Filesys) (d : Directory) (hcalls : Calls fs AllRoomy d) : SpaceOk d :=
  hcalls.good.spaceOk

def smallFs : Filesys := .smallBlocks 1000

/-- An environment in which a directory can be expanded by block 100, and every name is found as
    the third record of block 50. -/
def smallEnv : Env where
  newBlock := fun d => if ∀ x ∈ d.blocks, x.1 ≠ 100 then .ok 100 else .error .noSpace
  insertEntry := fun _ _ => none
  search := fun d _ =>
    if ∀ x ∈ d.blocks, x.1 = 50 → 2 < x.2.entries.length then .ok (50, 2) else .error .fileNotFound

theorem smallEnv_ok : smallEnv.Ok where
  fresh := by
    intro d blkno hnew
    unfold smallEnv at hnew
    dsimp only at hnew
    split at hnew
    · next h =>
      cases hnew
      exact ⟨by decide, h⟩
    · cases hnew
  found := by
    intro d name x b hsearch hmem
    unfold smallEnv at hsearch
    dsimp only at hsearch
    split at hsearch
    · next h =>
      cases hsearch
      exact h _ hmem rfl
    · cases hsearch

def dotDir : List (Nat × List Dirent) := [(50, [⟨10, 16, [46]⟩, ⟨2, 432, [46, 46]⟩])]

/-- The same after a name was added: its trailer still promises 416 bytes, and 400 are free. -/
def linkedDir : Directory :=
  ⟨50, [(50, ⟨[⟨10, 16, [46]⟩, ⟨2, 16, [46, 46]⟩, ⟨20, 416, [97]⟩], ⟨416, 0⟩⟩)]⟩

theorem link_promises_too_much : Calls smallFs (fun _ _ => True) linkedDir ∧
    ¬SpaceOk linkedDir := by
  refine ⟨?_, ?_⟩
  · have hbuild : Calls smallFs (fun _ _ => True)
        ⟨50, [(50, ⟨[⟨10, 16, [46]⟩, ⟨2, 432, [46, 46]⟩], ⟨416, 0⟩⟩)]⟩ :=
      .build dotDir _ (by decide) (by decide) (by decide) (by decide)
    exact .link smallEnv [97] 20 (.ok ()) _ hbuild smallEnv_ok trivial (by decide +kernel)
  · intro h
    have hhint := h.hint _ List.mem_cons_self
    exact absurd hhint (by decide)

def fullDir : List (Nat × List Dirent) :=
  [(50, [⟨10, 16, [46]⟩, ⟨2, 16, [46, 46]⟩, ⟨11, 208, List.replicate 196 97⟩,
    ⟨12, 208, List.replicate 196 98⟩])]

/-- Here a name goes to a new block, and then one is removed from the full one. -/
theorem calls_space_ok_full : ∃ d, Calls smallFs AllRoomy d ∧ d.blocks.length = 2 ∧
    d.drFreeBlk = 50 ∧ SpaceOk d := by
  have hbuild : Calls smallFs AllRoomy ⟨0, [(50, ⟨[⟨10, 16, [46]⟩, ⟨2, 16, [46, 46]⟩,
      ⟨11, 208, List.replicate 196 97⟩, ⟨12, 208, List.replicate 196 98⟩], ⟨0, 0⟩⟩)]⟩ :=
    .build fullDir _ (by decide +kernel) (by decide) (by decide) (by decide +kernel)
  have hlink : Calls smallFs AllRoomy ⟨0, [(50, ⟨[⟨10, 16, [46]⟩, ⟨2, 16, [46, 46]⟩,
      ⟨11, 208, List.replicate 196 97⟩, ⟨12, 208, List.replicate 196 98⟩], ⟨0, 0⟩⟩),
      (100, ⟨[⟨20, 448, [97]⟩], ⟨0, 0⟩⟩)]⟩ :=
    .link smallEnv [97] 20 (.ok ()) _ hbuild smallEnv_ok (by decide +kernel) (by decide +kernel)
  have hunlink : Calls smallFs AllRoomy ⟨50, [(50, ⟨[⟨10, 16, [46]⟩, ⟨2, 224, [46, 46]⟩,
      ⟨12, 208, List.replicate 196 98⟩], ⟨208, 0⟩⟩), (100, ⟨[⟨20, 448, [97]⟩], ⟨0, 0⟩⟩)]⟩ :=
    .unlink smallEnv [97] (.ok ()) _ hlink smallEnv_ok (by decide +kernel)
  exact ⟨_, hunlink, rfl, rfl, calls_space_ok smallFs _ hunlink⟩

end Ocfs2Tools.DirSpace
