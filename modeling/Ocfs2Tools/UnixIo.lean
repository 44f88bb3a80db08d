import Ocfs2Tools.Lib.Bytes
import Ocfs2Tools.Lib.Prog

/-!
# Block I/O through the cache: `unix_io.c`

A channel reads and writes blocks of a device with `pread64` and `pwrite64`, each of
which may fail or transfer fewer bytes than asked for; the environment decides in
`outcomes`. The cache holds copies of blocks. Its buffers are kept in a list in the
order in which they are stolen, the next one first; the red-black tree for looking
blocks up holds exactly the buffers that have a block number, so looking up is a
search of that list. Counters of hits and bytes are left out.
-/

namespace Ocfs2Tools.UnixIo

/-- The error codes of the block functions. -/
inductive IoError where
  | io
  | shortRead
  | shortWrite
deriving DecidableEq, Repr

/-- `struct io_cache_block`; a block number of `UINT64_MAX` (not looked up) is `none`. -/
structure CacheBlock where
  blkno : Option Nat
  buf : List UInt8
deriving DecidableEq, Repr

/-- `struct io_cache`: the list `ic_lru`, the buffer to steal next first. -/
structure IoCache where
  lru : List CacheBlock
deriving DecidableEq, Repr

/-- `struct _io_channel` together with the device behind `io_fd` and what its next
    `pread64` and `pwrite64` calls will do: fail (`none`), or transfer at most so many
    bytes. After the end of the list they transfer everything. -/
structure Channel where
  blksize : Nat
  nocache : Bool
  cache : Option IoCache
  device : Nat → UInt8
  outcomes : List (Option Nat)

abbrev Io (α : Type) : Type := Prog Channel IoError α

/-! ### `pread64` and `pwrite64` -/

/-- `count * channel->io_blksize` as a C `int`. -/
def intMul (count blksize : Nat) : Int := ((count * blksize : Nat) : Int).bmod (2 ^ 32)

/-- `location = blkno * channel->io_blksize`, a `uint64_t`. -/
def location (blkno blksize : Nat) : Nat := blkno * blksize % 2 ^ 64

/-- The loop around `pread64` or `pwrite64`: whether all of `size` bytes were
    transferred, how many were, and the outcomes left. -/
def transfer (size : Nat) : Nat → List (Option Nat) → Bool × Nat × List (Option Nat)
  | tot, [] => (true, max tot size, [])
  | tot, out :: rest =>
    if size ≤ tot then (true, tot, out :: rest)
    else
      match out with
      | none => (false, tot, rest)
      | some n => if n = 0 then (false, tot, rest) else transfer size
          (tot + min n (size - tot)) rest

/-- `unix_io_read_block`. -/
def unixIoReadBlock (blkno count : Nat) : Io (List UInt8) := fun ch =>
  let size := intMul count ch.blksize
  let (done, tot, rest) := transfer size.toNat 0 ch.outcomes
  let ch := { ch with outcomes := rest }
  if !done then some (.error .io, ch)
  else if (tot : Int) ≠ size then some (.error .shortRead, ch)
  else some (.ok (bytesAt ch.device (location blkno ch.blksize) tot), ch)

/-- `unix_io_write_block_full`: its return value, and `*completed`. -/
def unixIoWriteBlockFull (blkno count : Nat) (data : List UInt8) :
    Io (Except IoError Unit × Nat) := fun ch =>
  let size := intMul count ch.blksize
  let (done, tot, rest) := transfer size.toNat 0 ch.outcomes
  let ch := { ch with
    outcomes := rest
    device := writeBytes ch.device (location blkno ch.blksize) (data.take tot) }
  let ret :=
    if !done then .error .io
    else if (tot : Int) ≠ size then .error .shortWrite
    else .ok ()
  some (.ok (ret, tot / ch.blksize), ch)

/-! ### The cache -/

/-- `io_init_cache`: `nr_blocks` buffers without a block. -/
def ioInitCache (nrBlocks : Nat) : IoCache := ⟨List.replicate nrBlocks ⟨none, []⟩⟩

/-- `io_cache_lookup`. -/
def IoCache.lookup (ic : IoCache) (blkno : Nat) : Option CacheBlock :=
  ic.lru.find? fun icb => icb.blkno == some blkno

/-- `list_del` of the buffer of a block. -/
def IoCache.del (ic : IoCache) (blkno : Option Nat) : List CacheBlock :=
  ic.lru.eraseP fun icb => icb.blkno == blkno

/-- `io_cache_seen`: the buffer goes to the end of the list. -/
def IoCache.seen (ic : IoCache) (icb : CacheBlock) : IoCache := ⟨ic.del icb.blkno ++ [icb]⟩

/-- `io_cache_unsee`: the buffer is the next one to steal. -/
def IoCache.unsee (ic : IoCache) (icb : CacheBlock) : IoCache := ⟨icb :: ic.del icb.blkno⟩

/-- `io_cache_pop_lru` and `io_cache_insert`: the first buffer is disconnected and
    becomes the buffer of `blkno`. `none`: there is no buffer, or the assertion that
    `blkno` is not looked up yet fails. -/
def IoCache.steal (ic : IoCache) (blkno : Nat) (buf : List UInt8) : Option IoCache :=
  match ic.lru with
  | [] => none
  | _ :: rest =>
    if (IoCache.mk rest).lookup blkno = none then some ⟨⟨some blkno, buf⟩ :: rest⟩ else none

/-- Mark a buffer as used, or as the next to be stolen if caching is not wanted. -/
def IoCache.touch (ic : IoCache) (nocache : Bool) (icb : CacheBlock) : IoCache :=
  if nocache then ic.unsee icb else ic.seen icb

def onCache {α : Type} (f : IoCache → Option (α × IoCache)) : Io α := fun ch =>
  match ch.cache with
  | none => none
  | some ic =>
    match f ic with
    | none => none
    | some (a, ic) => some (.ok a, { ch with cache := some ic })

/-! ### Reading -/

/-- The number of blocks from `blkno` on, at most `count`, that are cached. -/
def goodBlocks (ic : IoCache) (blkno : Nat) : Nat → Nat
  | 0 => 0
  | count + 1 =>
    match ic.lookup blkno with
    | none => 0
    | some _ => goodBlocks ic (blkno + 1) count + 1

/-- One turn of the loop that syncs the cache with the data buffer: what the block
    of the data buffer holds then, and the cache. `fresh` is what was read for it,
    `none` if it was skipped because it was cached. -/
def syncReadBlock (nocache : Bool) (blkno : Nat) (fresh : Option (List UInt8)) (ic : IoCache) :
    Option (List UInt8 × IoCache) :=
  match ic.lookup blkno, fresh with
  | some icb, none => some (icb.buf, ic.touch nocache icb)
  | none, none => none
  | some icb, some data => some (data, ic.touch nocache icb)
  | none, some data =>
    if nocache then some (data, ic)
    else
      match ic.steal blkno data with
      | none => none
      | some ic => some (data, ic.seen ⟨some blkno, data⟩)

/-- The loop that syncs the cache with the data buffer after reading `data`, where the
    first `good` of the `good + count` blocks were not read. -/
def syncRead (nocache : Bool) (blksize : Nat) : Nat → Nat → Nat → List UInt8 → Io (List UInt8)
  | _, 0, 0, _ => pure []
  | blkno, 0, count + 1, data => do
    let block ← onCache (syncReadBlock nocache blkno (some (data.take blksize)))
    let rest ← syncRead nocache blksize (blkno + 1) 0 count (data.drop blksize)
    pure (block ++ rest)
  | blkno, good + 1, count, data => do
    let block ← onCache (syncReadBlock nocache blkno none)
    let rest ← syncRead nocache blksize (blkno + 1) good count data
    pure (block ++ rest)

/-- `io_cache_read_blocks`. -/
def ioCacheReadBlocks (blkno count : Nat) (nocache : Bool) : Io (List UInt8) := do
  let good ← onCache fun ic => some (goodBlocks ic blkno count, ic)
  let data ← if good < count then unixIoReadBlock (blkno + good) (count - good) else pure []
  let ch ← Prog.get
  syncRead nocache ch.blksize blkno good (count - good) data

/-- `one_meg_of_blocks`. -/
def oneMegOfBlocks (blksize : Nat) : Nat := (1024 * 1024 + blksize - 1) / blksize

/-- The loop of `io_cache_read_block`; it reads at least one block in each turn. -/
def ioCacheReadLoop (nocache : Bool) : Nat → Nat → Nat → Nat → Io (List UInt8)
  | 0, _, _, _ => Prog.abort
  | fuel + 1, todo, blkno, count =>
    if count = 0 then pure []
    else do
      let todo := min todo count
      let data ← ioCacheReadBlocks blkno todo nocache
      let rest ← ioCacheReadLoop nocache fuel todo (blkno + todo) (count - todo)
      pure (data ++ rest)

/-- `io_cache_read_block`. -/
def ioCacheReadBlock (blkno count : Nat) (nocache : Bool) : Io (List UInt8) := do
  let ch ← Prog.get
  ioCacheReadLoop nocache (count + 1) (oneMegOfBlocks ch.blksize) blkno count

/-! ### Writing -/

/-- One turn of the loop that syncs the cache with written data. -/
def syncWriteBlock (nocache : Bool) (blkno : Nat) (data : List UInt8) (ic : IoCache) :
    Option (Unit × IoCache) :=
  match ic.lookup blkno with
  | some _ => some ((), ic.touch nocache ⟨some blkno, data⟩)
  | none =>
    if nocache then some ((), ic)
    else
      match ic.steal blkno data with
      | none => none
      | some ic => some ((), ic.seen ⟨some blkno, data⟩)

/-- The loop that syncs the cache with the `completed` blocks written. -/
def syncWrite (nocache : Bool) (blksize : Nat) : Nat → Nat → List UInt8 → Io Unit
  | _, 0, _ => pure ()
  | blkno, completed + 1, data => do
    onCache (syncWriteBlock nocache blkno (data.take blksize))
    syncWrite nocache blksize (blkno + 1) completed (data.drop blksize)

/-- `io_cache_write_blocks`, which is all of `io_cache_write_block`. -/
def ioCacheWriteBlock (blkno count : Nat) (data : List UInt8) (nocache : Bool) : Io Unit := do
  let (ret, completed) ← unixIoWriteBlockFull blkno count data
  let ch ← Prog.get
  syncWrite nocache ch.blksize blkno completed data
  Prog.ofExcept ret

/-! ### The calls -/

/-- `io_read_block` and, with `nocache`, `io_read_block_nocache`. -/
def ioReadBlock (nocache : Bool) (blkno count : Nat) : Io (List UInt8) := do
  let ch ← Prog.get
  if ch.cache.isSome then ioCacheReadBlock blkno count (nocache || ch.nocache)
  else unixIoReadBlock blkno count

/-- `io_write_block` and, with `nocache`, `io_write_block_nocache`. -/
def ioWriteBlock (nocache : Bool) (blkno count : Nat) (data : List UInt8) : Io Unit := do
  let ch ← Prog.get
  if ch.cache.isSome then ioCacheWriteBlock blkno count data (nocache || ch.nocache)
  else do
    let (ret, _) ← unixIoWriteBlockFull blkno count data
    Prog.ofExcept ret

end Ocfs2Tools.UnixIo
