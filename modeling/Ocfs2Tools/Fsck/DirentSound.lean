import Ocfs2Tools.Fsck.DirentLoop

/-!
# Pass 2 on entries that are in order

With directory compression the loop moves every entry down over deleted ones and slack, while
it still reads at the old positions, and cuts the length of an entry one turn late. The
entries stay the same and in order, and only the last record may be deleted or have slack.

The inline data of a directory is walked up to the end of the block, where the extended
attributes of the inode may be: they are taken for entries.
-/

namespace Ocfs2Tools.Pass2

open Dir

variable {b b' : Buf} {w : Walk} {a p start stop offset wo : Nat} {prev : Option Nat}
  {seen seen' : Seen}

/-! ### Records in use -/

/-- The records from `a` on tile the block up to `stop`, and `es` are those in use. -/
inductive Records (b : Buf) (stop : Nat) : Nat → Listing → Prop where
  | nil : Records b stop stop []
  | cons {es : Listing} (a : Nat) (ok : EntryOk b a) (rest : Records b stop (a + recLen b a) es) :
    Records b stop a (live b a ++ es)

/-- The records from `start` to `p` are `es`: all in use, and as long as their names need. -/
inductive Packed (b : Buf) (start : Nat) : Nat → Listing → Prop where
  | nil : Packed b start start []
  | snoc {es : Listing} (p : Nat) (front : Packed b start p es) (ok : EntryOk b p)
    (used : inode b p ≠ 0) (tight : recLen b p = dirRecLen (nameLen b p)) :
    Packed b start (p + recLen b p) (es ++ live b p)

variable {es es' : Listing}

theorem Records.tiled (h : Records b stop a es) : Tiled b stop a := by
  induction h with
  | nil => exact .nil
  | cons a ok _ ih => exact .cons a ok ih

theorem Packed.records (h : Packed b start p es) (hrest : Records b stop p es') :
    Records b stop start (es ++ es') := by
  induction h generalizing es' with
  | nil => exact hrest
  | snoc p _ ok _ _ ih =>
    rw [List.append_assoc]
    exact ih (.cons p ok hrest)

theorem EntryOk.lengthsOk (ok : EntryOk b a) (rest : Tiled b stop (a + recLen b a)) :
    LengthsOk (recLen b a) (nameLen b a) (stop - a) := by
  have hm : dirMemberLen = 12 := rfl
  have hend := rest.eq_or_le
  refine ⟨ok.min, ok.aligned, by omega, ok.name, ?_⟩
  -- behind the record there is nothing, or another record
  unfold LeavesPartial
  omega

/-- From `a` on nothing is changed: no lengths are corrupt, and no other check changes anything. -/
inductive Quiet (w : Walk) (b : Buf) : Seen → Nat → Prop where
  | done {seen : Seen} {a : Nat} (h : w.stop ≤ a) : Quiet w b seen a
  | next {seen seen' : Seen} {a : Nat} (h : a < w.stop)
    (ok : corruptDirentLengths b a (w.stop - a) = false)
    (same : checkDirent w seen b a = some (seen', b)) (rest : Quiet w b seen' (a + recLen b a)) :
    Quiet w b seen a

/-- With every question answered no, the checks change nothing. -/
theorem checkDirent_refused (hno : ∀ q x, w.answer q x = false)
    (hin : a + dirMemberLen + nameLen b a ≤ w.blocksize) :
    ∃ seen', checkDirent w seen b a = some (seen', b) := by
  have hdots : fixDirentDots w b a = some b := by
    simp only [fixDirentDots, clobberDots, splitExcess, hno, Bool.false_eq_true, and_false,
      or_false, if_false, ite_self]
  have hname : fixDirentName w b a = b := by
    simp only [fixDirentName, hno, Bool.false_eq_true, and_false, if_false]
  have hino : fixDirentInode w b a = b := by
    simp only [fixDirentInode, hno, Bool.false_eq_true, and_false, if_false]
  have htype : fixDirentFiletype w b a = b := by
    simp only [fixDirentFiletype, hno, Bool.false_eq_true, and_false, if_false]
  have hlink : (fixDirentLinkage w seen.parents b a).2 = b := by
    simp only [fixDirentLinkage, hno, Bool.false_eq_true, if_false]
    split_ifs <;> rfl
  have hdup : ∃ names, fixDirentDup w seen.names b a = some (names, b) := by
    simp only [fixDirentDup, nameExists_iff, hno, and_true]
    split_ifs with hseen hout
    · exact ⟨_, rfl⟩
    · simp only [fixDirentDups, if_neg hseen] at hout
      omega
    · simp only [fixDirentDups, if_neg hseen]
      exact ⟨_, rfl⟩
  obtain ⟨names, hdup⟩ := hdup
  simp only [checkDirent, hdots, checkUsed, hname, hino, htype, hlink, hdup, Option.map_some]
  split_ifs <;> exact ⟨_, rfl⟩

theorem Quiet.of_refused (hno : ∀ q x, w.answer q x = false) (hin : w.stop ≤ w.blocksize)
    (h : Tiled b w.stop a) : ∀ seen, Quiet w b seen a := by
  induction h with
  | nil => exact fun _ => .done (Nat.le_refl _)
  | cons a ok rest ih =>
    intro seen
    have hmin : 16 ≤ recLen b a := ok.min
    have hname := ok.name
    have hm : dirMemberLen = 12 := rfl
    have := rest.le
    unfold dirRecLen at hname
    obtain ⟨seen', hsame⟩ := @checkDirent_refused b w a seen hno (by omega)
    exact .next (by omega) (corrupt_eq_false.2 (EntryOk.lengthsOk ok rest)) hsame (ih seen')

theorem Packed.congr (h : Packed b start p es) (hb : ∀ x < p, b' x = b x) :
    Packed b' start p es := by
  induction h with
  | nil => exact .nil
  | snoc p _ ok used tight ih =>
    have hmin : 16 ≤ recLen b p := ok.min
    have hhead : SameFor b b' p 12 := fun x _ hx => hb x (by omega)
    have := Packed.snoc p (ih fun x hx => hb x (by omega)) (ok.congr hhead)
      (by rw [inode_congr hhead]; exact used)
      (by rw [recLen_congr hhead, nameLen_congr hhead]; exact tight)
    rw [recLen_congr hhead, live_congr ok fun x _ hx => hb x hx] at this
    exact this

/-! ### Compression -/

/-- The state of a compressing walk that has come to `offset` and found `es` in use: they are
    packed, but the record at `prev` still reaches up to `offset`. -/
structure Gathered (w : Walk) (start : Nat) (b : Buf) (offset : Nat) (prev : Option Nat)
    (wo : Nat) (es : Listing) : Prop where
  inv : LoopInv w start b offset prev wo
  packed : ∃ front, Packed b start wo front ∧ es = front ++ prev.elim [] (live b)

section Compress

variable (hc : w.compressDirs = true)

include hc

/-- **One turn** of a compressing walk gathers one more record. -/
theorem Gathered.step (h : Gathered w start b offset prev wo es) (hok : EntryOk b offset)
    (hlt : offset + recLen b offset < 65536) (hnamed : inode b offset ≠ 0 → nameLen b offset ≠ 0) :
    ∃ m q, placeDirent true b offset prev wo = (m, q, q) ∧
      Gathered w start m (offset + recLen b offset) (some q) q (es ++ live b offset) ∧
      ∀ x, offset + recLen b offset ≤ x → m x = b x := by
  obtain ⟨m, q, hplace, hroom, hplaced⟩ := h.inv.placeDirent hc hok hlt
  obtain ⟨_, _, _, hplace', hinv, -⟩ := h.inv.accept hok hlt fun _ => hnamed
  rw [hc, hplace] at hplace'
  obtain ⟨rfl, rfl, rfl⟩ := hplace'
  obtain ⟨front, hfront, rfl⟩ := h.packed
  refine ⟨m, q, hplace, ⟨hinv, front ++ prev.elim [] (live b), ?_, ?_⟩, hplaced.behind⟩
  · cases hroom with
    | onto deleted same =>
      have hnone : prev.elim [] (live b) = [] := by
        cases prev with
        | none => rfl
        | some p => rw [Option.elim_some, live, if_pos (deleted p rfl)]
      rw [hnone, List.append_nil]
      exact hfront.congr same
    | behind _ same ok used tight listed =>
      rw [Option.elim_some, ← listed]
      exact (hfront.congr same).snoc wo ok used tight
  · rw [Option.elim_some, hplaced.listed]

variable (hsmall : w.stop < 65536)

include hsmall

/-- **The whole walk**, by induction on the records that are left. -/
theorem direntLoop_gathers (hrec : Records b' w.stop offset es') (hquiet : Quiet w b' seen offset)
    (hnamed : ∀ e ∈ es', e.2.2 ≠ []) (hsame : ∀ x, offset ≤ x → b x = b' x)
    (h : Gathered w start b offset prev wo es) :
    ∃ fuel seen' out prev' wo', direntLoop w fuel seen b offset prev wo = some (seen', out) ∧
      Gathered w start out w.stop prev' wo' (es ++ es') := by
  induction hrec generalizing seen b prev wo es with
  | nil =>
    refine ⟨1, seen, b, prev, wo, direntLoop_done w 0 seen b prev wo (Nat.le_refl _), ?_⟩
    rw [List.append_nil]
    exact h
  | cons a ok rest ih =>
    have hle := rest.tiled.le
    have hmin : 16 ≤ recLen b' a := ok.min
    have hhead : SameFor b' b a 12 := fun x h1 _ => hsame x h1
    have hr := recLen_congr hhead
    have hlive := live_congr ok fun x h1 _ => hsame x h1
    have hlen := EntryOk.lengthsOk ok rest.tiled
    rw [← hr, ← nameLen_congr hhead] at hlen
    obtain ⟨seen₁, hcheck, hquiet⟩ : ∃ seen₁, checkDirent w seen b a = some (seen₁, b) ∧
        Quiet w b' seen₁ (a + recLen b' a) := by
      cases hquiet with
      | done h => omega
      | @next _ seen₁ _ _ _ same rest =>
        have hs := checkDirent_splice w seen b b' a
        rw [← eq_splice (fun _ _ => rfl) hsame, same, Option.map_some,
          ← eq_splice (fun _ _ => rfl) hsame] at hs
        exact ⟨seen₁, hs, rest⟩
    obtain ⟨m, q, hplace, hgather, hframe⟩ :=
      h.step hc (ok.congr hhead) (by omega) fun hlv hn => by
        rw [← hlive, live, if_neg hlv] at hnamed
        refine hnamed (ident b a) (by simp) ?_
        rw [ident, hn]
        rfl
    obtain ⟨fuel, seen', out, prev', wo', hrun, hg⟩ := ih hquiet
      (fun e he => hnamed e (List.mem_append_right _ he))
      (fun x hx => (hframe x (by omega)).trans (hsame x (by omega))) (hr ▸ hgather)
    refine ⟨fuel + 1, seen', out, prev', wo', ?_, ?_⟩
    · rw [direntLoop_accept w fuel seen prev wo (by omega) hlen, hcheck, Option.bind_some, hc,
        hplace, hr]
      exact hrun
    · rw [← hlive, ← List.append_assoc]
      exact hg

/-- **Compression.** The records in use are kept in their order, and all but the last record
    are in use and without slack. -/
theorem direntLoop_compresses (hstart : start % 4 = 0) (hroom : start < w.stop)
    (hrec : Records b w.stop start es) (hquiet : Quiet w b seen start)
    (hnamed : ∀ e ∈ es, e.2.2 ≠ []) :
    ∃ fuel seen' out, direntLoop w fuel seen b start none start = some (seen', out) ∧
      Records out w.stop start es ∧
      ∃ last es', Packed out start last es' ∧ last + recLen out last = w.stop := by
  obtain ⟨fuel, seen', out, prev, wo, hrun, hinv, front, hfront, rfl⟩ :=
    direntLoop_gathers hc hsmall hrec hquiet hnamed (fun _ _ => rfl)
      ⟨.init w b hstart, [], .nil, rfl⟩
  refine ⟨fuel, seen', out, hrun, ?_⟩
  cases prev with
  | none => exact absurd (hinv.first rfl).1 (by omega)
  | some p =>
    obtain ⟨-, hok, hend⟩ := hinv.last p rfl
    obtain rfl := hinv.writeOff p rfl hc
    refine ⟨hfront.records ?_, wo, front, hfront, hend⟩
    rw [Option.elim_some, ← List.append_nil (live out wo)]
    exact .cons wo hok (by rw [hend]; exact .nil)

end Compress

def refusingWalk : Walk := { plainWalk with compressDirs := true, answer := fun _ _ => false }

/-- A deleted record, an entry `ab` with slack, another deleted record, and an entry `c`. -/
def gapEntries : Buf :=
  writeBytes (writeBytes (writeBytes (writeBytes (fun _ => 0) 8 [16])
    16 [7, 0, 0, 0, 0, 0, 0, 0, 32, 0, 2, 1, 97, 98]) 56 [20])
    68 [8, 0, 0, 0, 0, 0, 0, 0, 188, 1, 1, 1, 99]

theorem gapEntries_records : Records gapEntries 512 0 [(7, 1, [97, 98]), (8, 1, [99])] := by
  have hstep : ∀ {a r es}, recLen gapEntries a = r → EntryOk gapEntries a →
      Records gapEntries 512 (a + r) es → Records gapEntries 512 a (live gapEntries a ++ es) :=
    fun hr ok rest => .cons _ ok (hr ▸ rest)
  have hlast : Records gapEntries 512 68 (live gapEntries 68 ++ []) :=
    hstep (r := 444) (by decide) ⟨by decide, by decide, by decide⟩ .nil
  have hgap := hstep (a := 48) (r := 20) (by decide) ⟨by decide, by decide, by decide⟩ hlast
  have hab := hstep (a := 16) (r := 32) (by decide) ⟨by decide, by decide, by decide⟩ hgap
  exact hstep (a := 0) (r := 16) (by decide) ⟨by decide, by decide, by decide⟩ hab

theorem direntLoop_compresses_gap :
    ∃ fuel seen out, direntLoop refusingWalk fuel ⟨[], []⟩ gapEntries 0 none 0 =
        some (seen, out) ∧ Records out 512 0 [(7, 1, [97, 98]), (8, 1, [99])] ∧
      ∃ last es, Packed out 0 last es ∧ last + recLen out last = 512 :=
  direntLoop_compresses rfl (by decide) rfl (by decide) gapEntries_records
    (.of_refused (fun _ _ => rfl) (by decide) gapEntries_records.tiled _) (by decide)

/-! ### Inline directories -/

/-- The same walk with other answers. -/
def Walk.answering (w : Walk) (answer : Prompt → Nat → Bool) : Walk := { w with answer := answer }

/-- The same walk of the entries before `stop`. -/
def Walk.before (w : Walk) (stop : Nat) : Walk := { w with stop := stop }

/-- An inode whose inline data ends at `dataEnd`. The rest of the block, if there is one, holds
    extended attributes. The walk ends with the block in both cases. -/
structure InlineDir (w : Walk) (dataEnd : Nat) : Prop where
  walk : w.Ok
  plain : w.compressDirs = false
  stop : w.stop = w.blocksize
  aligned : dataEnd % 4 = 0
  room : inlineOff + 16 ≤ dataEnd
  attrs : dataEnd = w.blocksize ∨ dataEnd + 16 ≤ w.blocksize

/-- Whatever is answered, a healthy directory is left alone, a block that can be repaired is, and
    nothing outside of the inline data is changed. -/
structure InlineSafe (w : Walk) (dataEnd : Nat) : Prop where
  quiet : ∀ seen b, (∀ answer, Quiet ((w.answering answer).before dataEnd) b seen inlineOff) →
    ∀ answer, Quiet (w.answering answer) b seen inlineOff ∧ ∃ fuel seen',
      direntLoop (w.answering answer) fuel seen b inlineOff none inlineOff = some (seen', b)
  ends : ∀ answer seen b, Repairable (w.answering answer) seen b inlineOff → ∃ fuel r,
    direntLoop (w.answering answer) fuel seen b inlineOff none inlineOff = some r
  inside : ∀ answer seen b fuel seen' out,
    direntLoop (w.answering answer) fuel seen b inlineOff none inlineOff = some (seen', out) →
      ∀ x < w.blocksize, x < inlineOff ∨ dataEnd ≤ x → out x = b x

theorem Quiet.run (hc : w.compressDirs = false) (h : Quiet w b seen a) :
    ∀ prev wo, ∃ fuel seen', direntLoop w fuel seen b a prev wo = some (seen', b) := by
  induction h with
  | done h => exact fun prev wo => ⟨1, _, direntLoop_done w 0 _ b prev wo h⟩
  | @next seen seen₁ a h ok same rest ih =>
    intro prev wo
    obtain ⟨fuel, seen', hrun⟩ := ih (some a) wo
    refine ⟨fuel + 1, seen', ?_⟩
    rw [direntLoop_plain hc fuel prev wo h (corrupt_eq_false.1 ok), same]
    exact hrun

theorem InlineDir.answering {dataEnd : Nat} (h : InlineDir w dataEnd)
    (answer : Prompt → Nat → Bool) : InlineDir (w.answering answer) dataEnd :=
  ⟨⟨h.walk.aligned, h.walk.small⟩, h.plain, h.stop, h.aligned, h.room, h.attrs⟩

/-- With every question answered no, zeros behind a record with the inline data are made a record
    up to the end. -/
theorem InlineDir.overrun {dataEnd : Nat} (h : InlineDir w dataEnd)
    (hno : ∀ q x, w.answer q x = false) (hattrs : dataEnd + 16 ≤ w.stop) (seen : Seen) :
    ∃ fuel seen' out, direntLoop w fuel seen
        (setRecLen (fun _ => 0) inlineOff (dataEnd - inlineOff)) inlineOff none inlineOff =
          some (seen', out) ∧ recLen out dataEnd = w.stop - dataEnd := by
  have hsmall := h.walk.small
  have halign := h.walk.aligned
  have haligned := h.aligned
  have hroom := h.room
  have hstop := h.stop
  have hm : dirMemberLen = 12 := rfl
  have hi : inlineOff = 200 := rfl
  generalize hb : setRecLen (fun _ => 0) inlineOff (dataEnd - inlineOff) = b
  have hrec : recLen b inlineOff = dataEnd - inlineOff := by
    rw [← hb]
    exact recLen_setRecLen (by omega)
  have hname : nameLen b inlineOff = 0 := by
    rw [← hb, nameLen_setRecLen]
    rfl
  have hok : LengthsOk (recLen b inlineOff) (nameLen b inlineOff) (w.stop - inlineOff) := by
    rw [hrec, hname]
    refine ⟨?_, by omega, by omega, ?_, ?_⟩
    · show 16 ≤ dataEnd - inlineOff
      omega
    · show 12 ≤ dataEnd - inlineOff
      omega
    · unfold LeavesPartial
      omega
  have hzero : ∀ x, dataEnd ≤ x → b x = 0 := by
    intro x hx
    rw [← hb, setRecLen_outside (by omega)]
  have hr0 : recLen b dataEnd = 0 := by
    rw [recLen, hzero _ (by omega), hzero _ (by omega)]
    rfl
  have hbad : ¬LengthsOk (recLen b dataEnd) (nameLen b dataEnd) (w.stop - dataEnd) := fun h => by
    have h1 := h.min
    rw [hr0] at h1
    exact absurd h1 (by decide)
  generalize hb₁ : padPartial (blank (setRecLen b dataEnd (w.stop - dataEnd)) dataEnd) dataEnd 0 =
    b₁
  have hfix : fixDirentLengths w.blocksize b dataEnd (w.stop - dataEnd) = some b₁ := by
    rw [← hb₁, fixDirentLengths, hr0]
    exact if_pos (.inl (by decide))
  have hok₁ := @wipe_ok (w.stop - dataEnd) b dataEnd (by omega) (by omega) (by omega)
  have hrec₁ : recLen b₁ dataEnd = w.stop - dataEnd := by
    rw [← hb₁, padPartial, if_neg, blank_recLen, recLen_setRecLen (by omega)]
    unfold LeavesPartial
    omega
  have hname₁ : nameLen b₁ dataEnd = 0 := by rw [← hb₁, nameLen_padPartial, blank_nameLen]
  rw [hb₁] at hok₁
  obtain ⟨seen₁, hcheck⟩ := @checkDirent_refused b w inlineOff seen hno (by omega)
  obtain ⟨seen₂, hcheck₁⟩ := @checkDirent_refused b₁ w dataEnd seen₁ hno (by omega)
  refine ⟨4, seen₂, b₁, ?_, hrec₁⟩
  rw [direntLoop_plain h.plain _ _ _ (by omega) hok, hcheck, Option.bind_some, hrec,
    Nat.add_sub_cancel' (by omega), direntLoop_fix w _ _ _ _ (by omega) hbad, hfix,
    Option.bind_some, direntLoop_plain h.plain _ _ _ (by omega) hok₁, hcheck₁, Option.bind_some,
    hrec₁]
  exact direntLoop_done w 0 _ _ _ _ (by omega)

/-- The first block of a directory with inline data. -/
def inlineWalk : Walk := { plainWalk with blkno := 9, blkcount := 0, expectedType := fun _ => 2 }

/-- The dot entries from byte 200 on, and at byte 256 a list of one extended attribute. -/
def attrDir : Buf :=
  writeBytes (writeBytes (writeBytes (fun _ => 0) 200 [9, 0, 0, 0, 0, 0, 0, 0, 16, 0, 1, 2, 46])
    216 [9, 0, 0, 0, 0, 0, 0, 0, 40, 0, 2, 2, 46, 46]) 256 [1]

end Ocfs2Tools.Pass2
