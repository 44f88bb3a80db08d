import Ocfs2Tools.Dir.Link

/-!
# What the trailers say about free space

The trailer of a block should not promise more than the largest free record of the block, and
the list should have the blocks whose trailer promises something. Building the index and
removing names keep both. Adding a name keeps the list, but it takes space from a block and
leaves the trailer as it is: this is fine only in a block that has more than its trailer
promises (`Roomy`).
-/

namespace Ocfs2Tools.DirSpace

open List

open Dir (dirRecLen)

variable {fs : Filesys} {env : Env} {d d' : Directory} {es es' rest rest' : List Dirent}
  {de de' e : Dirent} {b : Block} {name : Name} {ino offset fuel blkno : Nat} {done : Bool}
  {m n blockend : Nat}

/-! ### Holes -/

/-- The records in use have room for their names. -/
def Valid (es : List Dirent) : Prop := ∀ e ∈ es, e.inode ≠ 0 → dirRecLen e.nameLen ≤ e.recLen

theorem hole_unused (h : de.inode = 0) : figureDirentHole de = de.recLen := if_pos h

theorem hole_used (h : de.inode ≠ 0) : figureDirentHole de = de.recLen - dirRecLen de.nameLen :=
  if_neg h

theorem hole_grow (hde : de.inode ≠ 0 → dirRecLen de.nameLen ≤ de.recLen) (n : Nat) :
    figureDirentHole { de with recLen := de.recLen + n } = figureDirentHole de + n := by
  by_cases hi : de.inode = 0
  · rw [hole_unused hi]
    exact @hole_unused { de with recLen := de.recLen + n } hi
  · rw [hole_used hi]
    refine (@hole_used { de with recLen := de.recLen + n } hi).trans ?_
    change de.recLen + n - dirRecLen de.nameLen = _
    omega

def sumHoles (es : List Dirent) : Nat := (es.map figureDirentHole).sum

theorem hole_le_largest (he : e ∈ es) : figureDirentHole e ≤ largestHole es := by
  induction es with
  | nil => cases he
  | cons de rest ih =>
    rcases mem_cons.mp he with rfl | he
    · exact le_max_left _ _
    · exact le_trans (ih he) (le_max_right _ _)

theorem exists_largest (hpos : 0 < largestHole es) :
    ∃ e ∈ es, figureDirentHole e = largestHole es := by
  induction es with
  | nil => cases hpos
  | cons de rest ih =>
    rw [largestHole] at hpos ⊢
    rcases le_total (largestHole rest) (figureDirentHole de) with hle | hle
    · exact ⟨de, mem_cons_self, (max_eq_left hle).symm⟩
    · rw [max_eq_right hle] at hpos ⊢
      obtain ⟨e, he, heq⟩ := ih hpos
      exact ⟨e, mem_cons_of_mem _ he, heq⟩

theorem le_findMaxRecLen {t : Nat} (ht : dirRecLen 1 ≤ t) :
    t ≤ findMaxRecLen es ↔ ∃ e ∈ es, t ≤ figureDirentHole e := by
  have hpos : 0 < dirRecLen 1 := by decide
  constructor
  · intro hle
    unfold findMaxRecLen at hle
    split at hle
    · obtain ⟨e, he, heq⟩ := @exists_largest es (by omega)
      exact ⟨e, he, by omega⟩
    · omega
  · rintro ⟨e, he, hle⟩
    have hlarge := hole_le_largest he
    unfold findMaxRecLen
    rw [if_pos (by omega)]
    omega

theorem findMaxRecLen_cases : findMaxRecLen es = 0 ∨ dirRecLen 1 ≤ findMaxRecLen es := by
  unfold findMaxRecLen
  split
  · exact .inr ‹_›
  · exact .inl rfl

/-! ### One step of `link_proc` -/

/-- What a step may do to the records of a block when `need` bytes are taken, or none. -/
structure Takes (need : Nat) (es es' : List Dirent) : Prop where
  valid : Valid es'
  survives : ∀ e ∈ es, ∃ e' ∈ es', figureDirentHole e ≤ figureDirentHole e' + need

theorem Valid.tail (h : Valid (de :: rest)) : Valid rest :=
  fun e he => h e (mem_cons_of_mem _ he)

theorem Valid.cons (hde : de.inode ≠ 0 → dirRecLen de.nameLen ≤ de.recLen) (h : Valid rest) :
    Valid (de :: rest) := forall_mem_cons.mpr ⟨hde, h⟩

theorem takes_refl (h : Valid es) (need : Nat) : Takes need es es :=
  ⟨h, fun e he => ⟨e, he, Nat.le_add_right _ _⟩⟩

theorem Takes.trans {es'' : List Dirent} (h : Takes m es es') (h' : Takes n es' es'') :
    Takes (m + n) es es'' := by
  refine ⟨h'.valid, fun e he => ?_⟩
  obtain ⟨e', he', hle⟩ := h.survives e he
  obtain ⟨e'', he'', hle'⟩ := h'.survives e' he'
  exact ⟨e'', he'', by omega⟩

theorem Takes.cons {need : Nat} (h : Takes need rest rest')
    (hde : de.inode ≠ 0 → dirRecLen de.nameLen ≤ de.recLen) :
    Takes need (de :: rest) (de :: rest') := by
  refine ⟨h.valid.cons hde,
    forall_mem_cons.mpr ⟨⟨de, mem_cons_self, Nat.le_add_right _ _⟩, fun e he => ?_⟩⟩
  obtain ⟨e', he', hle⟩ := h.survives e he
  exact ⟨e', mem_cons_of_mem _ he', hle⟩

theorem absorb_takes (h : Valid (de :: rest)) : Takes 0 (de :: rest)
        ((absorb blockend offset de rest).1 :: (absorb blockend offset de rest).2) ∧
      sumHoles ((absorb blockend offset de rest).1 :: (absorb blockend offset de rest).2) =
        sumHoles (de :: rest) := by
  cases rest with
  | nil => exact ⟨takes_refl h 0, rfl⟩
  | cons next rest =>
    by_cases hc : offset + de.recLen < blockend - 8 ∧ next.inode = 0 ∧
        offset + de.recLen + next.recLen ≤ blockend
    · have habs : absorb blockend offset de (next :: rest) =
          ({ de with recLen := de.recLen + next.recLen }, rest) := if_pos hc
      rw [habs]
      have hnext := hole_unused hc.2.1
      have hde := h de mem_cons_self
      have hhole : figureDirentHole { de with recLen := de.recLen + next.recLen } =
          figureDirentHole de + figureDirentHole next := by
        rw [hnext, hole_grow hde]
      refine ⟨⟨h.tail.tail.cons fun hi => le_trans (hde hi) (Nat.le_add_right _ _), ?_⟩, ?_⟩
      · refine forall_mem_cons.mpr ⟨⟨_, mem_cons_self, by rw [hhole]; omega⟩,
          forall_mem_cons.mpr ⟨⟨_, mem_cons_self, by rw [hhole]; omega⟩, fun e he => ?_⟩⟩
        exact ⟨e, mem_cons_of_mem _ he, Nat.le_add_right _ _⟩
      · unfold sumHoles
        simp only [map_cons, sum_cons, hhole]
        omega
    · have habs : absorb blockend offset de (next :: rest) = (de, next :: rest) := if_neg hc
      rw [habs]
      exact ⟨takes_refl h 0, rfl⟩

theorem dirRecLen_mono (h : m ≤ n) : dirRecLen m ≤ dirRecLen n := by
  unfold dirRecLen
  omega

/-- What becomes of the records when the name was put among them, or was not. -/
structure Linked (name : Name) (done : Bool) (es es' : List Dirent) : Prop where
  takes : Takes (if done then dirRecLen name.length else 0) es es'
  same : done = false → sumHoles es' = sumHoles es
  fits : done = true → dirRecLen name.length ≤ sumHoles es

theorem Linked.refl (h : Valid es) : Linked name false es es :=
  ⟨takes_refl h 0, fun _ => rfl, nofun⟩

theorem putName_linked (h : Valid (de :: rest))
    (hput : putName name ino de rest = (de', rest', done)) :
    Linked name done (de :: rest) (de' :: rest') := by
  unfold putName at hput
  by_cases hi : de.inode = 0
  · rw [if_neg (not_not.mpr hi)] at hput
    by_cases hlt : de.recLen < dirRecLen name.length
    · rw [if_pos hlt] at hput
      cases hput
      exact .refl h
    · -- the record takes the name
      rw [if_neg hlt] at hput
      cases hput
      have hlen : dirRecLen (name.length % 256) ≤ dirRecLen name.length :=
        dirRecLen_mono (Nat.mod_le _ _)
      refine ⟨⟨h.tail.cons fun _ => ?_, forall_mem_cons.mpr ⟨⟨_, mem_cons_self, ?_⟩, fun e he =>
        ⟨e, mem_cons_of_mem _ he, Nat.le_add_right _ _⟩⟩⟩, nofun, fun _ => ?_⟩
      · change dirRecLen (name.length % 256) ≤ de.recLen
        omega
      · rw [hole_unused hi]
        unfold figureDirentHole
        split
        · exact Nat.le_add_right _ _
        · change de.recLen ≤ de.recLen - dirRecLen (name.length % 256) + dirRecLen name.length
          omega
      · unfold sumHoles
        rw [map_cons, sum_cons, hole_unused hi]
        omega
  · rw [if_pos hi] at hput
    by_cases hlt : de.recLen < dirRecLen de.nameLen + dirRecLen name.length
    · rw [if_pos hlt] at hput
      cases hput
      exact .refl h
    · -- the hole of the record becomes a record of its own
      rw [if_neg hlt] at hput
      cases hput
      have hnew : figureDirentHole ⟨0, de.recLen - dirRecLen de.nameLen, []⟩ =
          figureDirentHole de := by
        rw [hole_used hi, hole_unused rfl]
      have hold : figureDirentHole { de with recLen := dirRecLen de.nameLen } = 0 := by
        rw [hole_used (show Dirent.inode { de with recLen := dirRecLen de.nameLen } ≠ 0 from hi)]
        exact Nat.sub_self _
      refine ⟨⟨(h.tail.cons fun h0 => absurd rfl h0).cons fun _ => le_refl _, forall_mem_cons.mpr
        ⟨⟨_, mem_cons_of_mem _ mem_cons_self, by rw [hnew]; exact Nat.le_add_right _ _⟩, fun e he =>
          ⟨e, mem_cons_of_mem _ (mem_cons_of_mem _ he), Nat.le_add_right _ _⟩⟩⟩, fun _ => ?_, nofun⟩
      · unfold sumHoles
        simp only [map_cons, sum_cons, hnew, hold]
        omega

theorem linkProc_linked (h : Valid (de :: rest))
    (hlink : linkProc blockend name ino offset de rest = (de', rest', done)) :
    Linked name done (de :: rest) (de' :: rest') := by
  obtain ⟨habs, hsum⟩ := @absorb_takes rest de offset blockend h
  obtain ⟨hput, hsame, hfit⟩ := putName_linked habs.valid hlink
  refine ⟨?_, fun hd => (hsame hd).trans hsum, fun hd => ?_⟩
  · have := habs.trans hput
    rwa [Nat.zero_add] at this
  · rw [← hsum]
    exact hfit hd

/-! ### A whole block -/

theorem processDirEntry_linked {fuel offset es es'} (h : Valid es)
    (hrun : processDirEntry fs name ino fuel offset es = some (es', done)) :
    Linked name done es es' := by
  induction fuel generalizing offset es es' with
  | zero =>
    cases hrun
    exact .refl h
  | succ fuel ih =>
    cases es with
    | nil =>
      cases hrun
      exact .refl h
    | cons de rest =>
      rw [processDirEntry] at hrun
      split at hrun
      · cases hrun
        exact .refl h
      · split at hrun
        · cases hrun
        · split at hrun
          · next de' rest' hlink =>
            cases hrun
            exact linkProc_linked h hlink
          · next de' rest' hlink =>
            obtain ⟨htake, hsame, _⟩ := linkProc_linked h hlink
            split at hrun
            · cases hrun
            · next rest'' done' hrec =>
              cases hrun
              obtain ⟨htake', hsame', hfit'⟩ := ih htake.valid.tail hrec
              have hcons := htake'.cons (htake.valid de' mem_cons_self)
              have hsum : sumHoles (de :: rest) = figureDirentHole de' + sumHoles rest' :=
                (hsame rfl).symm
              refine ⟨?_, fun hd => ?_, fun hd => ?_⟩
              · have := htake.trans hcons
                rwa [if_neg Bool.false_ne_true, Nat.zero_add] at this
              · rw [hsum, ← hsame' hd]
                rfl
              · have := hfit' hd
                omega

theorem absorb_used (h : ∀ e ∈ rest, e.inode ≠ 0) :
    absorb blockend offset de rest = (de, rest) := by
  cases rest with
  | nil => rfl
  | cons next rest => exact if_neg fun hc => h next mem_cons_self hc.2.1

theorem dirRecLen_ge (n : Nat) : 12 ≤ dirRecLen n := by
  unfold dirRecLen
  omega

theorem processDirEntry_put (hoff : ¬fs.fsBlocksize ≤ offset) (hi : de.inode = 0)
    (hfit : ¬de.recLen < dirRecLen name.length) (hrest : ∀ e ∈ rest, e.inode ≠ 0)
    (hrun : processDirEntry fs name ino (fuel + 1) offset (de :: rest) = some (es', done)) :
    es' = ⟨ino, de.recLen, name⟩ :: rest ∧ done = true := by
  have hput : putName name ino de rest = (⟨ino, de.recLen, name⟩, rest, true) := by
    rw [putName]
    rw [if_neg (not_not.mpr hi), if_neg hfit]
  rw [processDirEntry, if_neg hoff, linkProc, absorb_used hrest, hput] at hrun
  split at hrun
  · cases hrun
  · cases hrun
    exact ⟨rfl, rfl⟩

theorem processDirEntry_used {fuel offset es es'} (hused : (∀ e ∈ es, e.inode ≠ 0))
    (hfuel : fs.fsBlocksize ≤ offset + fuel)
    (hrun : processDirEntry fs name ino fuel offset es = some (es', done)) :
    (done = false ∧ es' = es) ∨ (done = true ∧ ∃ before de behind de' new, es = before ++ de ::
      behind ∧ es' = before ++ de' :: new :: behind) := by
  induction fuel generalizing offset es es' with
  | zero =>
    cases hrun
    exact .inl ⟨rfl, rfl⟩
  | succ fuel ih =>
    cases es with
    | nil =>
      cases hrun
      exact .inl ⟨rfl, rfl⟩
    | cons de rest =>
      obtain ⟨hde, hrest⟩ := forall_mem_cons.mp hused
      rw [processDirEntry] at hrun
      split at hrun
      · cases hrun
        exact .inl ⟨rfl, rfl⟩
      split at hrun
      · cases hrun
      rename_i hbad
      rw [linkProc, absorb_used hrest, putName] at hrun
      simp only [entryCorrupt, Bool.or_eq_true, not_or, decide_eq_true_eq, not_lt] at hbad
      rw [if_pos hde] at hrun
      have h12' := dirRecLen_ge name.length
      by_cases hlt : de.recLen < dirRecLen de.nameLen + dirRecLen name.length
      · -- no room behind this one
        rw [if_pos hlt] at hrun
        dsimp only at hrun
        split at hrun
        · cases hrun
        · next rest' done' hrec =>
          cases hrun
          rcases ih hrest (by omega) hrec with ⟨rfl, rfl⟩ |
            ⟨rfl, before, x, behind, x', new, rfl, rfl⟩
          · exact .inl ⟨rfl, rfl⟩
          · exact .inr ⟨rfl, de :: before, x, behind, x', new, rfl, rfl⟩
      · -- the next round puts the name into what was cut off
        rw [if_neg hlt] at hrun
        obtain ⟨fuel', rfl⟩ : ∃ k, fuel = k + 1 := ⟨fuel - 1, by omega⟩
        dsimp only at hrun
        split at hrun
        · cases hrun
        · next rest' done' hrec =>
          cases hrun
          obtain ⟨rfl, rfl⟩ := processDirEntry_put (by omega) rfl (by dsimp only; omega) hrest hrec
          exact .inr ⟨rfl, [], de, rest, _, _, rfl, rfl⟩

/-! ### A trailer after a name was added -/

/-- The block has no room for a record of `need` bytes, or its trailer does not promise all it
    has: nothing at all; `need` bytes less than one of its holes; or there are two holes as
    large as promised, and nothing to absorb. -/
def Roomy (need : Nat) (b : Block) : Prop :=
  sumHoles b.entries < need ∨ b.trailer.dbFreeRecLen = 0 ∨
    (∃ e ∈ b.entries, b.trailer.dbFreeRecLen + need ≤ figureDirentHole e) ∨
    ((∀ e ∈ b.entries, e.inode ≠ 0) ∧
      2 ≤ (b.entries.filter fun e => b.trailer.dbFreeRecLen ≤ figureDirentHole e).length)

instance (need : Nat) (b : Block) : Decidable (Roomy need b) :=
  inferInstanceAs (Decidable (_ ∨ _ ∨ _ ∨ _))

/-- What the trailer of a block should say. -/
structure TrailerOk (b : Block) : Prop where
  least : b.trailer.dbFreeRecLen = 0 ∨ dirRecLen 1 ≤ b.trailer.dbFreeRecLen
  hint : b.trailer.dbFreeRecLen ≤ findMaxRecLen b.entries

theorem TrailerOk.of_hole {t : Trailer} (hleast : t.dbFreeRecLen = 0 ∨ dirRecLen 1 ≤ t.dbFreeRecLen)
    (hole : t.dbFreeRecLen ≠ 0 → ∃ e ∈ es, t.dbFreeRecLen ≤ figureDirentHole e) :
    TrailerOk ⟨es, t⟩ := by
  refine ⟨hleast, ?_⟩
  rcases hleast with h0 | hge
  · dsimp only
    omega
  · have hpos : 0 < dirRecLen 1 := by decide
    exact (le_findMaxRecLen hge).mpr (hole (by omega))

theorem TrailerOk.hole (h : TrailerOk b) (hne : b.trailer.dbFreeRecLen ≠ 0) :
    ∃ e ∈ b.entries, b.trailer.dbFreeRecLen ≤ figureDirentHole e := by
  rcases h.least with h0 | hge
  · exact absurd h0 hne
  · exact (le_findMaxRecLen hge).mp h.hint

theorem TrailerOk.pass (h : TrailerOk b) (hv : Valid b.entries)
    (hroom : Roomy (dirRecLen name.length) b)
    (hrun : processDirEntry fs name ino fs.fsBlocksize 0 b.entries = some (es', false)) :
    TrailerOk ⟨es', b.trailer⟩ ∧ Valid es' ∧ Roomy (dirRecLen name.length) ⟨es', b.trailer⟩ := by
  obtain ⟨htake, hsum, _⟩ := processDirEntry_linked hv hrun
  have hsurv : ∀ {t}, (∃ e ∈ b.entries, t ≤ figureDirentHole e) → ∃ e ∈ es',
      t ≤ figureDirentHole e := by
    rintro t ⟨e, he, hle⟩
    obtain ⟨e', he', hle'⟩ := htake.survives e he
    exact ⟨e', he', le_trans hle hle'⟩
  refine ⟨.of_hole h.least fun hne => hsurv (h.hole hne), htake.valid, ?_⟩
  rcases hroom with hno | h0 | hbig | ⟨hused, htwo⟩
  · exact .inl (by rw [hsum rfl]; exact hno)
  · exact .inr (.inl h0)
  · exact .inr (.inr (.inl (hsurv hbig)))
  · rcases processDirEntry_used hused (Nat.le_of_eq (Nat.zero_add _).symm) hrun with ⟨_, rfl⟩ |
      ⟨hf, _⟩
    · exact .inr (.inr (.inr ⟨hused, htwo⟩))
    · cases hf

theorem TrailerOk.put (h : TrailerOk b) (hv : Valid b.entries)
    (hroom : Roomy (dirRecLen name.length) b)
    (hrun : processDirEntry fs name ino fs.fsBlocksize 0 b.entries = some (es', true)) :
    TrailerOk ⟨es', b.trailer⟩ ∧ Valid es' := by
  obtain ⟨htake, _, hfit⟩ := processDirEntry_linked hv hrun
  refine ⟨.of_hole h.least fun hne => ?_, htake.valid⟩
  rcases hroom with hno | h0 | ⟨e, he, hbig⟩ | ⟨hused, htwo⟩
  · have := hfit rfl
    omega
  · exact absurd h0 hne
  · obtain ⟨e', he', hle⟩ := htake.survives e he
    rw [if_pos rfl] at hle
    exact ⟨e', he', by omega⟩
  · rcases processDirEntry_used hused (Nat.le_of_eq (Nat.zero_add _).symm) hrun with
      ⟨hf, _⟩ | ⟨_, before, de, behind, de', new, heq, rfl⟩
    · cases hf
    · -- one of the two is not the one behind which the name went
      have hother : ∃ e ∈ before ++ behind, b.trailer.dbFreeRecLen ≤ figureDirentHole e := by
        rw [heq, filter_append, length_append, filter_cons] at htwo
        have hpos : 0 < ((before ++ behind).filter fun e =>
            b.trailer.dbFreeRecLen ≤ figureDirentHole e).length := by
          rw [filter_append, length_append]
          split at htwo
          · rw [length_cons] at htwo
            omega
          · omega
        obtain ⟨e, he⟩ := exists_mem_of_length_pos hpos
        obtain ⟨he, hle⟩ := mem_filter.mp he
        exact ⟨e, he, by simpa using hle⟩
      obtain ⟨e, he, hle⟩ := hother
      exact ⟨e, mem_append.mpr ((mem_append.mp he).imp_right fun he =>
        mem_cons_of_mem _ (mem_cons_of_mem _ he)), hle⟩

end Ocfs2Tools.DirSpace
