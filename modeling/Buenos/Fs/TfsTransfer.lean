import Buenos.Fs.TfsCreate

/-! Reading and writing files. The first, the middle and the last block of a range take
different paths through the code; on the bytes of the file they all do the same. -/
namespace Buenos.Fs.Tfs

open Buenos.Foundation Buenos.Lib

/-! ### The content of a file -/

def bytesAt (b : Bytes) (p n : Nat) : List UInt8 := (List.range n).map fun j => b (p + j)

def IsFile (d : Disk) (fileid : Nat) : Prop :=
  fileid ≠ 0 ∧ ∃ k < tfsMaxFiles, entryInode (d tfsDirectoryBlock) k = fileid

/-- The data blocks one after the other, cut to the size of the file. -/
def content (d : Disk) (fileid : Nat) : List UInt8 :=
  ((dataBlocks (d fileid)).flatMap fun b => bytesAt (d b) 0 tfsBlockSize).take (filesize (d fileid))

/-- The `i`-th byte of the file of an inode. -/
def fileByte (d : Disk) (inode : Bytes) (i : Nat) : UInt8 := d (blockAt inode (i / tfsBlockSize)) (i % tfsBlockSize)

/-- What a well-formed volume says about one file. -/
structure Intact (g : Gbd) (d : Disk) (fileid : Nat) : Prop where
  inside : ∀ b ∈ fileid :: dataBlocks (d fileid), 3 ≤ b ∧ b < totalblocks g
  nodup : (fileid :: dataBlocks (d fileid)).Nodup
  enough : (filesize (d fileid) + 511) / tfsBlockSize ≤ (dataBlocks (d fileid)).length

theorem WellFormed.intact (formed : WellFormed g d) (file : IsFile d fileid) : Intact g d fileid := by
  obtain ⟨nonzero,k,inside,rfl⟩ := file
  have blocks := fileBlocks_used inside nonzero
  refine ⟨?_,?_,formed.enough k inside nonzero⟩
  · rw [← blocks]
    exact formed.inside k
  · rw [← blocks]
    exact formed.held.once k

theorem flatMap_bytesAt (d : Disk) (bs : List Nat) (positive : 0 < width) :
    (bs.flatMap fun b => bytesAt (d b) 0 width) =
      (List.range (width * bs.length)).map fun i => d (bs.getD (i / width) 0) (i % width) := by
  induction bs with
  | nil => rfl
  | cons b rest ih =>
    rw [List.flatMap_cons,ih,List.length_cons,Nat.mul_succ,Nat.add_comm _ width,List.range_add,List.map_append,
      List.map_map]
    congr 1
    · refine List.map_congr_left fun i member => ?_
      have small := List.mem_range.mp member
      simp [Nat.div_eq_of_lt small,Nat.mod_eq_of_lt small]
    · refine List.map_congr_left fun i _ => ?_
      have next : (width + i) / width = i / width + 1 := by
        rw [Nat.add_comm,Nat.add_div_right i positive]
      simp [next]

theorem content_eq (enough : (filesize (d fileid) + 511) / tfsBlockSize ≤ (dataBlocks (d fileid)).length) :
    content d fileid = (List.range (filesize (d fileid))).map (fileByte d (d fileid)) := by
  have covered : filesize (d fileid) ≤ tfsBlockSize * (dataBlocks (d fileid)).length := by
    unfold tfsBlockSize at *
    omega
  rw [content,flatMap_bytesAt d _ (by decide),← List.map_take,List.take_range,Nat.min_eq_left covered]
  refine List.map_congr_left fun i member => ?_
  have small := List.mem_range.mp member
  have block : i / tfsBlockSize < (dataBlocks (d fileid)).length := by
    unfold tfsBlockSize at *
    omega
  rw [List.getD_eq_getElem _ _ block,dataBlocks_get block]
  rfl

theorem blockAt_mem (small : i < (dataBlocks inode).length) : blockAt inode i ∈ dataBlocks inode := by
  rw [← dataBlocks_get small]
  exact List.getElem_mem small

section File
variable {g : Gbd} {d : Disk} {fileid : Nat} (intact : Intact g d fileid)
include intact

theorem Intact.filesize_le : filesize (d fileid) ≤ 65024 := by
  have enough := intact.enough
  have short := dataBlocks_length (d fileid)
  unfold tfsBlockSize tfsBlocksMax at *
  omega

theorem Intact.block_lt (small : i < (dataBlocks (d fileid)).length) : blockAt (d fileid) i < g.blocks :=
  Nat.lt_of_lt_of_le (intact.inside _ (List.mem_cons_of_mem fileid (blockAt_mem small))).2 (totalblocks_le g).1

theorem Intact.block_inj (one : i < (dataBlocks (d fileid)).length) (two : k < (dataBlocks (d fileid)).length)
    (same : blockAt (d fileid) i = blockAt (d fileid) k) : i = k := by
  rw [← dataBlocks_get one,← dataBlocks_get two] at same
  exact (List.nodup_cons.mp intact.nodup).2.getElem_inj_iff.mp same

theorem Intact.block_needed (small : 512 * i < filesize (d fileid)) : i < (dataBlocks (d fileid)).length := by
  have enough := intact.enough
  unfold tfsBlockSize at enough
  omega

end File

/-! ### Reading -/

theorem readData_ok (m : Machine) (i t len p : Nat) (fits : t + len ≤ 512) :
    ((m.afterRead (blockAt (m.memory .inode) i) .bat).readData len t p).memory .inode = m.memory .inode ∧
    ((m.afterRead (blockAt (m.memory .inode) i) .bat).readData len t p).disk = m.disk ∧
    ∀ j, ((m.afterRead (blockAt (m.memory .inode) i) .bat).readData len t p).user j =
      if p ≤ j ∧ j < p + len then fileByte m.disk (m.memory .inode) (512 * i + t + (j - p)) else m.user j := by
  refine ⟨?_,rfl,fun j => ?_⟩
  · simp only [Machine.readData,afterRead_of_ne (show Buffer.inode ≠ .bat by decide)]
  · simp only [Machine.readData,afterRead_self,afterRead_user]
    rw [memcopy_byte,Int.toNat_natCast]
    split
    · next range =>
      have block : (512 * i + t + (j - p)) / 512 = i := by omega
      have position : (512 * i + t + (j - p)) % 512 = t + (j - p) := by omega
      rw [fileByte,show tfsBlockSize = 512 from rfl,block,position]
    · rfl

theorem readBlocks_ok (reliable : Reliable g) (b2 left b1 read rest p : Nat) (m : Machine) (last : b2 + 1 = b1 + left)
    (count : left = (rest + 511) / 512) (inside : ∀ i, b1 ≤ i → i < b1 + left → blockAt (m.memory .inode) i < g.blocks) :
    (readBlocks g b2 (read + rest : Nat) left b1 read p m).1 = (read + rest : Nat) ∧
    (readBlocks g b2 (read + rest : Nat) left b1 read p m).2.disk = m.disk ∧
    ∀ j, (readBlocks g b2 (read + rest : Nat) left b1 read p m).2.user j =
      if p ≤ j ∧ j < p + rest then fileByte m.disk (m.memory .inode) (512 * b1 + (j - p)) else m.user j := by
  induction left generalizing b1 read rest p m with
  | zero =>
    have none : rest = 0 := by omega
    subst none
    refine ⟨rfl,rfl,fun j => ?_⟩
    rw [if_neg (by omega)]
    rfl
  | succ left ih =>
    rw [readBlocks,Int.toNat_natCast,readBlock_ok reliable (inside b1 (by omega) (by omega))]
    split
    · next ending =>
      have none : left = 0 := by omega
      subst none
      have length : ((read + rest : Nat) : Int) - (read : Nat) = (rest : Nat) := by omega
      obtain ⟨_,onDisk,onUser⟩ := readData_ok m b1 0 rest p (by omega)
      rw [length,readBlocks]
      exact ⟨by push_cast; omega,onDisk,onUser⟩
    · next middle =>
      have more : 0 < left := by
        by_contra none
        exact middle (by omega)
      obtain ⟨tail,rfl⟩ : ∃ tail, rest = 512 + tail := ⟨rest - 512,by omega⟩
      obtain ⟨onInode,onDisk,onUser⟩ := readData_ok m b1 0 512 p (by omega)
      have next : ((b1 : Nat) : Int) + 1 = (b1 + 1 : Nat) ∧ ((read : Nat) : Int) + (tfsBlockSize : Nat) = (read + 512 : Nat) :=
        ⟨rfl,rfl⟩
      rw [next.1,next.2,show tfsBlockSize = 512 from rfl]
      generalize (m.afterRead (blockAt (m.memory .inode) b1) .bat).readData (512 : Nat) 0 p = z at onInode onDisk onUser ⊢
      have step := ih (b1 + 1) (read + 512) tail (p + 512) z (by omega) (by omega) (by
        intro i low high
        rw [onInode]
        exact inside i (by omega) (by omega))
      rw [onInode,onDisk,show read + 512 + tail = read + (512 + tail) by omega] at step
      obtain ⟨code,disk,user⟩ := step
      refine ⟨code,disk,fun j => ?_⟩
      rw [user j,onUser j]
      by_cases late : p + 512 ≤ j ∧ j < p + 512 + tail
      · rw [if_pos late,if_pos (by omega),show 512 * (b1 + 1) + (j - (p + 512)) = 512 * b1 + (j - p) by omega]
      · rw [if_neg late]
        by_cases early : p ≤ j ∧ j < p + 512
        · rw [if_pos early,if_pos (by omega),Nat.add_zero]
        · rw [if_neg early,if_neg (by omega)]

/-- The first and the last block of the range `[offset, offset + k)`, as the code computes them. -/
theorem range_blocks (offset k : Nat) (positive : 0 < k) (small : offset + k ≤ 2 ^ 31) :
    ((offset : Int).tdiv tfsBlockSize = (offset / 512 : Nat)) ∧
    ((wrap ((offset : Int) + k - 1)).tdiv tfsBlockSize = ((offset + k - 1) / 512 : Nat)) ∧
    ((offset : Int).tmod tfsBlockSize = (offset % 512 : Nat)) ∧
    (min (tfsBlockSize - (offset : Int).tmod tfsBlockSize) (k : Int) = (min (512 - offset % 512) k : Nat)) := by
  have final : (offset : Int) + k - 1 = (offset + k - 1 : Nat) := by omega
  have position : (offset : Int).tmod tfsBlockSize = (offset % 512 : Nat) := rfl
  have short : offset % 512 < 512 := Nat.mod_lt offset (by decide)
  refine ⟨rfl,by rw [final,wrap_small (by omega) (by omega)]; rfl,position,?_⟩
  rw [position]
  unfold tfsBlockSize
  omega

theorem tfsRead_effect (reliable : Reliable g) {m : Machine} (intact : Intact g m.disk fileid) (buffer n offset : Nat)
    (high : offset ≤ filesize (m.disk fileid)) :
    (tfsRead g fileid buffer n offset m).1 = (min n (filesize (m.disk fileid) - offset) : Nat) ∧
    (tfsRead g fileid buffer n offset m).2.disk = m.disk ∧
    ∀ j, (tfsRead g fileid buffer n offset m).2.user j =
      if buffer ≤ j ∧ j < buffer + min n (filesize (m.disk fileid) - offset) then
        fileByte m.disk (m.disk fileid) (offset + (j - buffer)) else m.user j := by
  have total := (totalblocks_le g).1
  have self := intact.inside fileid List.mem_cons_self
  have bound := intact.filesize_le
  unfold tfsRead
  rw [if_neg (by omega),Int.toNat_natCast,readBlock_ok reliable (by omega)]
  rw [afterRead_self,toS32_small (by omega),if_neg (by omega)]
  have least : min (n : Int) ((filesize (m.disk fileid) : Nat) - (offset : Nat)) =
      (min n (filesize (m.disk fileid) - offset) : Nat) := by omega
  rw [least]
  generalize size : min n (filesize (m.disk fileid) - offset) = k
  unfold readFile
  split
  · next zero =>
    refine ⟨by omega,rfl,fun j => ?_⟩
    rw [if_neg (by omega)]
    rfl
  next nonzero =>
  obtain ⟨first,final,position,length⟩ := range_blocks offset k (by omega) (by omega)
  obtain ⟨r,rest,reads,whole⟩ : ∃ r rest, min (512 - offset % 512) k = r ∧ k = r + rest :=
    ⟨_,k - min (512 - offset % 512) k,rfl,by omega⟩
  have blocks : (((offset + k - 1) / 512 : Nat) - (offset / 512 : Nat) : Int).toNat = (rest + 511) / 512 := by omega
  have second : ((offset / 512 : Nat) : Int) + 1 = (offset / 512 + 1 : Nat) := by omega
  rw [first,final,length,position,reads,readRange,blocks,second]
  simp only [Int.toNat_natCast]
  generalize start : m.afterRead fileid .inode = y
  have memory : y.memory .inode = m.disk fileid ∧ y.disk = m.disk ∧ y.user = m.user := by
    rw [← start]
    exact ⟨afterRead_self,rfl,rfl⟩
  obtain ⟨inode,disk,user⟩ := memory
  rw [readBlock_ok reliable (by rw [inode]; exact intact.block_lt (intact.block_needed (by omega)))]
  obtain ⟨onInode,onDisk,onUser⟩ := readData_ok y (offset / 512) (offset % 512) r buffer (by omega)
  generalize (y.afterRead (blockAt (y.memory .inode) (offset / 512)) .bat).readData r (offset % 512) buffer = z
    at onInode onDisk onUser ⊢
  rw [inode,disk,user,Nat.div_add_mod] at onUser
  rw [inode] at onInode
  rw [disk] at onDisk
  have loop := readBlocks_ok reliable ((offset + k - 1) / 512) ((rest + 511) / 512) (offset / 512 + 1) r rest
    (buffer + r) z (by omega) rfl (by
      intro i low high
      rw [onInode]
      exact intact.block_lt (intact.block_needed (by omega)))
  rw [onInode,onDisk,← whole] at loop
  obtain ⟨code,after,bytes⟩ := loop
  refine ⟨code,after,fun j => ?_⟩
  rw [bytes j,onUser j]
  by_cases late : buffer + r ≤ j ∧ j < buffer + r + rest
  · rw [if_pos late,if_pos (by omega),
      show 512 * (offset / 512 + 1) + (j - (buffer + r)) = offset + (j - buffer) by omega]
  · rw [if_neg late]
    by_cases early : buffer ≤ j ∧ j < buffer + r
    · rw [if_pos early,if_pos (by omega)]
    · rw [if_neg early,if_neg (by omega)]

def Gbd.unfailing (g : Gbd) : Gbd := { g with succeeds := fun _ => true }

theorem readBlock_unfailing {next next' : Machine → Int × Machine} (returned : 0 ≤ (readBlock g block b m next).1)
    (same : ∀ m, 0 ≤ (next m).1 → next m = next' m) :
    readBlock g block b m next = readBlock g.unfailing block b m next' := by
  unfold readBlock at returned ⊢
  by_cases ok : g.ok m block = true
  · have ok' : g.unfailing.ok m block = true := (Bool.and_eq_true_iff.mp ok).2
    simp only [ok,ok',if_true] at returned ⊢
    exact same _ returned
  · rw [if_neg ok] at returned
    contradiction

theorem readBlocks_unfailing (b2 bufsize : Int) (left : Nat) (b1 read : Int) (buffer : Nat) (m : Machine)
    (returned : 0 ≤ (readBlocks g b2 bufsize left b1 read buffer m).1) :
    readBlocks g b2 bufsize left b1 read buffer m = readBlocks g.unfailing b2 bufsize left b1 read buffer m := by
  induction left generalizing b1 read buffer m with
  | zero => rfl
  | succ left ih =>
    apply readBlock_unfailing returned
    intro m later
    by_cases last : b1 = b2
    · rw [if_pos last] at later ⊢
      rw [if_pos last]
      exact ih _ _ _ _ later
    · rw [if_neg last] at later ⊢
      rw [if_neg last]
      exact ih _ _ _ _ later

/-- A read that does not return an error has met no failing request. -/
theorem tfsRead_unfailing {fileid n offset : Int} (returned : 0 ≤ (tfsRead g fileid buffer n offset m).1) :
    tfsRead g fileid buffer n offset m = tfsRead g.unfailing fileid buffer n offset m := by
  have total : totalblocks g.unfailing = totalblocks g := rfl
  unfold tfsRead at returned ⊢
  rw [total]
  by_cases outside : fileid < 2 ∨ fileid > totalblocks g
  · rw [if_pos outside] at returned
    contradiction
  rw [if_neg outside] at returned ⊢
  rw [if_neg outside]
  apply readBlock_unfailing returned
  intro m later
  by_cases beyond : offset < 0 ∨ offset > toS32 (filesize (m.memory .inode))
  · rw [if_pos beyond] at later
    contradiction
  rw [if_neg beyond] at later ⊢
  rw [if_neg beyond]
  unfold readFile at later ⊢
  by_cases empty : min n (toS32 (filesize (m.memory .inode)) - offset) = 0
  · rw [if_pos empty,if_pos empty]
  rw [if_neg empty] at later ⊢
  rw [if_neg empty]
  exact readBlock_unfailing later fun m last => readBlocks_unfailing _ _ _ _ _ _ _ last

/-! ### Writing -/

/-- The requests for `len` bytes of a block: one that is overwritten in part is read before. -/
def pieceRequests (len : Nat) : Nat := if len < tfsBlockSize then 2 else 1

def pieceOk (succeeds : Nat → Bool) (r len : Nat) : Bool := succeeds r && succeeds (r + (pieceRequests len - 1))

/-- The bytes written before the first request that fails, `none` if none does. -/
def cut (succeeds : Nat → Bool) : Nat → List Nat → Option Nat
  | _, [] => none
  | r, len :: rest =>
    if pieceOk succeeds r len then (cut succeeds (r + pieceRequests len) rest).map (len + ·) else some 0

/-- The bytes of each block after the first of a transfer. -/
def pieces (rest : Nat) : List Nat :=
  (List.range ((rest + 511) / tfsBlockSize)).map fun i => min tfsBlockSize (rest - tfsBlockSize * i)

/-- The bytes of each block of a transfer. -/
def transfer (offset k : Nat) : List Nat :=
  if k = 0 then []
  else min (tfsBlockSize - offset % tfsBlockSize) k :: pieces (k - min (tfsBlockSize - offset % tfsBlockSize) k)

/-- What the call returns. -/
def outcome (total : Nat) (c : Option Nat) : Int := c.elim (total : Int) fun _ => vfsError

theorem cut_reliable {succeeds : Nat → Bool} (reliable : ∀ n, succeeds n = true) (r : Nat) (lens : List Nat) :
    cut succeeds r lens = none := by
  induction lens generalizing r with
  | nil => rfl
  | cons len rest ih => simp [cut,pieceOk,reliable,ih]

theorem pieces_last (positive : 0 < rest) (small : rest ≤ 512) : pieces rest = [rest] := by
  have one : (rest + 511) / tfsBlockSize = 1 := by unfold tfsBlockSize; omega
  rw [pieces,one]
  simp only [tfsBlockSize,List.range_one,List.map_cons,List.map_nil]
  rw [Nat.min_eq_right (by omega),Nat.mul_zero,Nat.sub_zero]

theorem pieces_more (tail : Nat) : pieces (512 + tail) = 512 :: pieces tail := by
  have more : (512 + tail + 511) / tfsBlockSize = (tail + 511) / tfsBlockSize + 1 := by unfold tfsBlockSize; omega
  rw [pieces,more,List.range_succ_eq_map,List.map_cons,List.map_map,pieces]
  apply congrArg₂ List.cons
  · simp only [tfsBlockSize]
    omega
  · apply List.map_congr_left
    intro i _
    simp only [Function.comp,tfsBlockSize]
    omega

theorem pieces_sum (rest : Nat) : (pieces rest).sum = rest := by
  induction rest using Nat.strongRecOn with
  | ind rest ih =>
    by_cases none : rest = 0
    · subst none
      rfl
    by_cases small : rest ≤ 512
    · rw [pieces_last (by omega) small,List.sum_singleton]
    · obtain ⟨tail,rfl⟩ : ∃ tail, rest = 512 + tail := ⟨rest - 512,by omega⟩
      rw [pieces_more,List.sum_cons,ih tail (by omega)]

/-- The machine after `len` bytes were written into a block at `t`. -/
structure Patched (m z : Machine) (block t len p : Nat) : Prop where
  inode : z.memory .inode = m.memory .inode
  user : z.user = m.user
  others : ∀ b, b ≠ block → z.disk b = m.disk b
  bytes : ∀ j < 512, z.disk block j = if t ≤ j ∧ j < t + len then m.user (p + (j - t)) else m.disk block j

theorem writeData_cases (m n : Machine) (i t len p : Nat) (fits : t + len ≤ 512)
    (inside : blockAt (m.memory .inode) i < g.blocks) (inode : n.memory .inode = m.memory .inode) (user : n.user = m.user)
    (disk : n.disk = m.disk) (old : len < 512 → n.memory .bat = m.disk (blockAt (m.memory .inode) i))
    (next : Machine → Int × Machine) :
    (g.succeeds n.log.length = true ∧ ∃ z, Patched m z (blockAt (m.memory .inode) i) t len p ∧
      z.log.length = n.log.length + 1 ∧ writeData g i len t p next n = next z) ∨
    (g.succeeds n.log.length = false ∧ ∃ z, z.disk = m.disk ∧ writeData g i len t p next n = (vfsError, z)) := by
  rw [writeData,Int.toNat_natCast,inode,writeBlock_eq,ok_inside inside]
  cases works : g.succeeds (n.load .bat (memcopy len (n.memory .bat) t n.user p)).log.length with
  | false =>
    refine .inr ⟨works,_,?_,if_neg Bool.false_ne_true⟩
    exact disk
  | true =>
    refine .inl ⟨works,_,⟨?_,?_,?_,?_⟩,?_,if_pos rfl⟩
    · rw [afterWrite_memory,load_memory_of_ne _ (show Buffer.inode ≠ .bat by decide),inode]
    · rw [afterWrite_user,load_user,user]
    · intro b other
      rw [afterWrite_disk,load_disk,Function.update_of_ne other,disk]
    · intro j small
      rw [afterWrite_disk,Function.update_self,load_memory_self,memcopy_byte,Int.toNat_natCast,user]
      split
      · rfl
      · next outside => rw [old (by omega)]
    · simp [Machine.afterWrite,Machine.store,Machine.load]

theorem patch_cases (m : Machine) (i t len p : Nat) (fits : t + len ≤ 512)
    (inside : blockAt (m.memory .inode) i < g.blocks) (next : Machine → Int × Machine) :
    (pieceOk g.succeeds m.log.length len = true ∧ ∃ z, Patched m z (blockAt (m.memory .inode) i) t len p ∧
      z.log.length = m.log.length + pieceRequests len ∧
      readPartial g len (blockAt (m.memory .inode) i) m (writeData g i len t p next) = next z) ∨
    (pieceOk g.succeeds m.log.length len = false ∧ ∃ z, z.disk = m.disk ∧
      readPartial g len (blockAt (m.memory .inode) i) m (writeData g i len t p next) = (vfsError, z)) := by
  unfold readPartial pieceOk pieceRequests
  by_cases small : len < tfsBlockSize
  · have cast : (len : Int) < tfsBlockSize := by exact_mod_cast small
    rw [if_pos cast,if_pos small,readBlock_eq,ok_inside inside]
    cases reads : g.succeeds m.log.length with
    | false =>
      refine .inr ⟨rfl,_,?_,if_neg Bool.false_ne_true⟩
      rfl
    | true =>
      rw [if_pos rfl]
      have length : (m.afterRead (blockAt (m.memory .inode) i) .bat).log.length = m.log.length + 1 := by
        simp [Machine.afterRead,Machine.load]
      rcases writeData_cases (g := g) m (m.afterRead (blockAt (m.memory .inode) i) .bat) i t len p fits inside
        (afterRead_of_ne (by decide)) rfl rfl (fun _ => afterRead_self) next with
          ⟨writes,z,patched,log,done⟩ | ⟨fails,z,kept,done⟩
      · rw [length] at writes log
        exact .inl ⟨by simp [writes],z,patched,log,done⟩
      · rw [length] at fails
        exact .inr ⟨by simp [fails],z,kept,done⟩
  · have cast : ¬(len : Int) < tfsBlockSize := by exact_mod_cast small
    rw [if_neg cast,if_neg small]
    have whole : ¬len < 512 := small
    rcases writeData_cases (g := g) m m i t len p fits inside rfl rfl rfl (fun short => absurd short whole) next with
        ⟨writes,z,patched,log,done⟩ | ⟨fails,z,kept,done⟩
    · exact .inl ⟨by simp [writes],z,patched,log,done⟩
    · exact .inr ⟨by simp [fails],z,kept,done⟩

/-- `w` bytes from `p` on have gone to the blocks from `b1` on. -/
structure Advanced (m z : Machine) (b1 left w p : Nat) : Prop where
  others : ∀ b, (∀ i, b1 ≤ i → i < b1 + left → blockAt (m.memory .inode) i ≠ b) → z.disk b = m.disk b
  bytes : ∀ i j, b1 ≤ i → i < b1 + left → j < 512 → z.disk (blockAt (m.memory .inode) i) j =
    if 512 * (i - b1) + j < w then m.user (p + (512 * (i - b1) + j)) else m.disk (blockAt (m.memory .inode) i) j

theorem Advanced.none (same : z.disk = m.disk) (b1 left p : Nat) : Advanced m z b1 left 0 p := by
  refine ⟨fun b _ => by rw [same],fun i j _ _ _ => ?_⟩
  rw [if_neg (Nat.not_lt_zero _),same]

theorem Advanced.cons (patched : Patched m y (blockAt (m.memory .inode) b1) 0 512 p)
    (inj : ∀ i k, b1 ≤ i → i < b1 + (left + 1) → b1 ≤ k → k < b1 + (left + 1) →
      blockAt (m.memory .inode) i = blockAt (m.memory .inode) k → i = k)
    (later : Advanced y z (b1 + 1) left w (p + 512)) : Advanced m z b1 (left + 1) (512 + w) p := by
  obtain ⟨others,bytes⟩ := later
  rw [patched.inode] at others bytes
  rw [patched.user] at bytes
  constructor
  · intro b outside
    refine (others b fun i low high => outside i (by omega) (by omega)).trans ?_
    exact patched.others b (outside b1 (by omega) (by omega)).symm
  · intro i j low high small
    by_cases first : i = b1
    · subst first
      refine (congrFun (others _ fun k above below same => ?_) j).trans ?_
      · have := inj k i (by omega) (by omega) (by omega) (by omega) same
        omega
      · rw [patched.bytes j small]
        simp [small,show j < 512 + w by omega]
    · refine (bytes i j (by omega) (by omega) small).trans ?_
      rw [patched.others _ fun same => first (inj i b1 (by omega) (by omega) (by omega) (by omega) same),
        show p + 512 + (512 * (i - (b1 + 1)) + j) = p + (512 * (i - b1) + j) by omega]
      by_cases below : 512 * (i - (b1 + 1)) + j < w
      · rw [if_pos below,if_pos (by omega)]
      · rw [if_neg below,if_neg (by omega)]

/-- The blocks after the first get `rest` bytes from `p` on, or as many as come before a
request that fails. -/
theorem writeBlocks_cut (b2 left b1 written rest p : Nat) (m : Machine) (last : b2 + 1 = b1 + left)
    (count : left = (rest + 511) / 512) (inside : ∀ i, b1 ≤ i → i < b1 + left → blockAt (m.memory .inode) i < g.blocks)
    (inj : ∀ i k, b1 ≤ i → i < b1 + left → b1 ≤ k → k < b1 + left →
      blockAt (m.memory .inode) i = blockAt (m.memory .inode) k → i = k) :
    (writeBlocks g b2 (written + rest : Nat) left b1 written p m).1 =
      outcome (written + rest) (cut g.succeeds m.log.length (pieces rest)) ∧
    Advanced m (writeBlocks g b2 (written + rest : Nat) left b1 written p m).2 b1 left
      ((cut g.succeeds m.log.length (pieces rest)).getD rest) p := by
  induction left generalizing b1 written rest p m with
  | zero =>
    have none : rest = 0 := by omega
    subst none
    exact ⟨rfl,Advanced.none rfl b1 0 p⟩
  | succ left ih =>
    rw [writeBlocks]
    simp only [Int.toNat_natCast]
    have here := inside b1 (by omega) (by omega)
    split
    · next ending =>
      have none : left = 0 := by omega
      subst none
      rw [show ((written + rest : Nat) : Int) - (written : Nat) = (rest : Nat) by omega,
        pieces_last (by omega) (by omega)]
      rcases patch_cases (g := g) m b1 0 rest p (by omega) here fun m =>
        writeBlocks g b2 (written + rest : Nat) 0 (b1 + 1) (written + rest : Nat) p m with
          ⟨ok,z,patched,_,done⟩ | ⟨bad,z,kept,done⟩
      · rw [done,writeBlocks,cut,if_pos ok]
        refine ⟨rfl,?_,?_⟩
        · intro b outside
          exact patched.others b (outside b1 (by omega) (by omega)).symm
        · intro i j low high small
          obtain rfl : i = b1 := by omega
          rw [patched.bytes j small]
          simp [cut]
      · rw [done,cut,if_neg (by simp [bad])]
        exact ⟨rfl,Advanced.none kept b1 1 p⟩
    · next middle =>
      have more : 0 < left := by
        by_contra none
        exact middle (by omega)
      obtain ⟨tail,rfl⟩ : ∃ tail, rest = 512 + tail := ⟨rest - 512,by omega⟩
      rw [show tfsBlockSize = 512 from rfl,pieces_more,cut]
      have whole : pieceRequests 512 = 1 := rfl
      rcases writeData_cases (g := g) m m b1 0 512 p (by omega) here rfl rfl rfl (by omega) fun m =>
        writeBlocks g b2 (written + (512 + tail) : Nat) left (b1 + 1) (written + (512 : Nat)) (p + 512) m with
          ⟨ok,z,patched,log,done⟩ | ⟨bad,z,kept,done⟩
      · rw [done,if_pos (by simp [pieceOk,whole,ok]),whole,← log]
        have step := ih (b1 + 1) (written + 512) tail (p + 512) z (by omega) (by omega) (by
            intro i low high
            rw [patched.inode]
            exact inside i (by omega) (by omega)) (by
            intro i k one two three four
            rw [patched.inode]
            exact inj i k (by omega) (by omega) (by omega) (by omega))
        rw [show written + 512 + tail = written + (512 + tail) by omega] at step
        obtain ⟨code,advanced⟩ := step
        refine ⟨code.trans ?_,?_⟩
        · cases cut g.succeeds z.log.length (pieces tail) <;> rfl
        · have all := advanced.cons patched inj
          generalize cut g.succeeds z.log.length (pieces tail) = c at all ⊢
          cases c <;> exact all
      · rw [done,if_neg (by simp [pieceOk,bad])]
        exact ⟨rfl,Advanced.none kept b1 (left + 1) p⟩

/-- The bytes `[offset, offset + k)` of a file are replaced, and no other byte on the disk. -/
structure Overwritten (d d' : Disk) (fileid offset k : Nat) (data : Nat → UInt8) : Prop where
  others : ∀ b, b ∉ dataBlocks (d fileid) → d' b = d b
  bytes : ∀ i j, i < (dataBlocks (d fileid)).length → j < 512 → d' (blockAt (d fileid) i) j =
    if offset ≤ 512 * i + j ∧ 512 * i + j < offset + k then data (512 * i + j - offset) else d (blockAt (d fileid) i) j

theorem Overwritten.none (same : d' = d) (fileid offset : Nat) (data : Nat → UInt8) :
    Overwritten d d' fileid offset 0 data := by
  refine ⟨fun b _ => by rw [same],fun i j _ _ => ?_⟩
  rw [if_neg (by omega),same]

theorem Overwritten.first (intact : Intact g d fileid) (inode : y.memory .inode = d fileid) (disk : y.disk = d)
    (patched : Patched y z (blockAt (d fileid) (offset / 512)) (offset % 512) r p) (small : offset % 512 + r ≤ 512)
    (here : offset / 512 < (dataBlocks (d fileid)).length)
    (needed : ∀ i, offset / 512 + 1 ≤ i → i < offset / 512 + 1 + left → i < (dataBlocks (d fileid)).length)
    (full : 0 < w → offset % 512 + r = 512) (bound : w ≤ 512 * left)
    (advanced : Advanced z u (offset / 512 + 1) left w (p + r)) :
    Overwritten d u.disk fileid offset (r + w) fun i => y.user (p + i) := by
  have kept := patched.others
  have replaced := patched.bytes
  rw [disk] at kept replaced
  obtain ⟨others,bytes⟩ := advanced
  rw [patched.inode,inode] at others bytes
  rw [patched.user] at bytes
  constructor
  · intro b outside
    refine (others b fun i low below same => outside (same ▸ blockAt_mem (needed i low below))).trans ?_
    exact kept b fun same => outside (same ▸ blockAt_mem here)
  · intro i j little inside
    by_cases written : offset / 512 + 1 ≤ i ∧ i < offset / 512 + 1 + left
    · refine (bytes i j written.1 written.2 inside).trans ?_
      rw [kept _ fun same => by have := intact.block_inj little here same; omega]
      by_cases below : 512 * (i - (offset / 512 + 1)) + j < w
      · have := full (by omega)
        rw [if_pos below,if_pos (by omega),
          show p + r + (512 * (i - (offset / 512 + 1)) + j) = p + (512 * i + j - offset) by omega]
      · rw [if_neg below,if_neg (by omega)]
    · refine (congrFun (others _ fun l low below same => written ?_) j).trans ?_
      · rw [← intact.block_inj (needed l low below) little same]
        exact ⟨low,below⟩
      · by_cases same : i = offset / 512
        · subst same
          rw [replaced j inside]
          by_cases range : offset % 512 ≤ j ∧ j < offset % 512 + r
          · rw [if_pos range,if_pos (by omega),
              show p + (j - offset % 512) = p + (512 * (offset / 512) + j - offset) by omega]
          · rw [if_neg range,if_neg (by omega)]
        · rw [kept _ fun equal => same (intact.block_inj little here equal),if_neg (by omega)]

theorem transfer_cons (positive : 0 < k) (first : min (512 - offset % 512) k = r) (whole : k = r + rest) :
    transfer offset k = r :: pieces rest := by
  rw [transfer,if_neg (by omega)]
  simp only [tfsBlockSize,first]
  rw [show k - r = rest by omega]

theorem cut_le (succeeds : Nat → Bool) (r : Nat) (lens : List Nat) : (cut succeeds r lens).getD lens.sum ≤ lens.sum := by
  induction lens generalizing r with
  | nil => exact Nat.le_refl _
  | cons len rest ih =>
    have later := ih (r + pieceRequests len)
    rw [cut,List.sum_cons]
    split
    · cases stop : cut succeeds (r + pieceRequests len) rest with
      | none => exact Nat.le_refl _
      | some w =>
        rw [stop] at later
        simpa using later
    · exact Nat.zero_le _

/-- The inode is read: a write of `k` bytes replaces as many as come before a failing request. -/
theorem tfsWrite_cut {m : Machine} (intact : Intact g m.disk fileid) (buffer n offset : Nat)
    (high : offset ≤ filesize (m.disk fileid)) (read : g.succeeds m.log.length = true)
    (size : min n (filesize (m.disk fileid) - offset) = k) :
    (tfsWrite g fileid buffer n offset m).1 =
      outcome k (cut g.succeeds (m.log.length + 1) (transfer offset k)) ∧
    Overwritten m.disk (tfsWrite g fileid buffer n offset m).2.disk fileid offset
      ((cut g.succeeds (m.log.length + 1) (transfer offset k)).getD k) fun i => m.user (buffer + i) := by
  have total := (totalblocks_le g).1
  have self := intact.inside fileid List.mem_cons_self
  have bound := intact.filesize_le
  have least : min (n : Int) ((filesize (m.disk fileid) : Nat) - (offset : Nat)) = (k : Nat) := by omega
  rw [tfsWrite,if_neg (by omega),Int.toNat_natCast,readBlock_eq,ok_inside (by omega),read,if_pos rfl,
    afterRead_self,toS32_small (by omega),if_neg (by omega),least]
  by_cases zero : k = 0
  · subst zero
    exact ⟨rfl,Overwritten.none rfl fileid offset _⟩
  rw [writeFile,if_neg (by omega)]
  obtain ⟨first,final,position,length⟩ := range_blocks offset k (by omega) (by omega)
  obtain ⟨r,rest,writes,whole⟩ : ∃ r rest, min (512 - offset % 512) k = r ∧ k = r + rest :=
    ⟨_,k - min (512 - offset % 512) k,rfl,by omega⟩
  have blocks : (((offset + k - 1) / 512 : Nat) - (offset / 512 : Nat) : Int).toNat = (rest + 511) / 512 := by omega
  have second : ((offset / 512 : Nat) : Int) + 1 = (offset / 512 + 1 : Nat) := by omega
  rw [first,final,length,position,writes,writeRange,blocks,second,transfer_cons (by omega) writes whole,cut]
  simp only [Int.toNat_natCast]
  have here : offset / 512 < (dataBlocks (m.disk fileid)).length := intact.block_needed (by omega)
  generalize start : m.afterRead fileid .inode = y
  have memory : y.memory .inode = m.disk fileid ∧ y.disk = m.disk ∧ y.user = m.user ∧
      y.log.length = m.log.length + 1 := by
    rw [← start]
    exact ⟨afterRead_self,rfl,rfl,by simp [Machine.afterRead,Machine.load]⟩
  obtain ⟨onInode,onDisk,onUser,onLog⟩ := memory
  rcases patch_cases (g := g) y (offset / 512) (offset % 512) r buffer (by omega)
    (by rw [onInode]; exact intact.block_lt here) fun m =>
      writeBlocks g ((offset + k - 1) / 512 : Nat) k ((rest + 511) / 512) (offset / 512 + 1 : Nat) r (buffer + r) m with
        ⟨ok,z,patched,log,done⟩ | ⟨bad,z,kept,done⟩
  · rw [onLog] at ok log
    rw [done,if_pos ok,← log]
    have later : ∀ i, offset / 512 + 1 ≤ i → i < offset / 512 + 1 + (rest + 511) / 512 →
        i < (dataBlocks (m.disk fileid)).length := by
      intro i low below
      exact intact.block_needed (by omega)
    have loop := writeBlocks_cut (g := g) ((offset + k - 1) / 512) ((rest + 511) / 512) (offset / 512 + 1) r rest
      (buffer + r) z (by omega) rfl (by
        intro i low below
        rw [patched.inode,onInode]
        exact intact.block_lt (later i low below)) (by
        intro i l one two three four
        rw [patched.inode,onInode]
        exact intact.block_inj (later i one two) (later l three four))
    rw [← whole] at loop
    obtain ⟨code,advanced⟩ := loop
    have sum := cut_le g.succeeds z.log.length (pieces rest)
    rw [pieces_sum] at sum
    rw [onInode] at patched
    have effect := Overwritten.first intact onInode onDisk patched (by omega) here later (by omega) (by omega) advanced
    rw [onUser] at effect
    generalize cut g.succeeds z.log.length (pieces rest) = c at code effect ⊢
    refine ⟨code.trans ?_,?_⟩
    · cases c <;> rfl
    · cases c with
      | none =>
        rw [Option.getD_none,← whole] at effect
        exact effect
      | some w => exact effect
  · rw [onLog] at bad
    rw [done,if_neg (by simp [bad])]
    exact ⟨rfl,Overwritten.none (kept.trans onDisk) fileid offset _⟩

theorem tfsWrite_unread {m : Machine} (intact : Intact g m.disk fileid) (buffer : Nat) (n offset : Int)
    (unread : g.succeeds m.log.length = false) :
    (tfsWrite g fileid buffer n offset m).1 = vfsError ∧ (tfsWrite g fileid buffer n offset m).2.disk = m.disk := by
  have total := (totalblocks_le g).1
  have self := intact.inside fileid List.mem_cons_self
  rw [tfsWrite,if_neg (by omega),Int.toNat_natCast,readBlock_eq,ok_inside (by omega),unread,if_neg Bool.false_ne_true]
  exact ⟨rfl,rfl⟩

theorem tfsWrite_effect (reliable : Reliable g) {m : Machine} (intact : Intact g m.disk fileid) (buffer n offset : Nat)
    (high : offset ≤ filesize (m.disk fileid)) :
    (tfsWrite g fileid buffer n offset m).1 = (min n (filesize (m.disk fileid) - offset) : Nat) ∧
    Overwritten m.disk (tfsWrite g fileid buffer n offset m).2.disk fileid offset
      (min n (filesize (m.disk fileid) - offset)) fun i => m.user (buffer + i) := by
  have effect := tfsWrite_cut intact buffer n offset high (reliable _) rfl
  rw [cut_reliable reliable] at effect
  exact effect

/-! ### Contents -/

theorem bytes_slice (f : Nat → UInt8) (fits : o + k ≤ size) :
    (((List.range size).map f).drop o).take k = (List.range k).map fun i => f (o + i) := by
  obtain ⟨rest,rfl⟩ := Nat.exists_eq_add_of_le fits
  rw [List.range_add,List.range_add,List.map_append,List.map_append,List.append_assoc,List.drop_left' (by simp),
    List.take_left' (by simp),List.map_map]
  rfl

theorem bytes_splice (f h : Nat → UInt8) (fits : o + k ≤ size) (outside : ∀ i, ¬(o ≤ i ∧ i < o + k) → h i = f i) :
    (List.range size).map h = ((List.range size).map f).take o ++ (List.range k).map (fun i => h (o + i)) ++
      ((List.range size).map f).drop (o + k) := by
  obtain ⟨rest,rfl⟩ := Nat.exists_eq_add_of_le fits
  have start : ((List.range (o + k + rest)).map f).take o = (List.range o).map h := by
    rw [← List.map_take,List.take_range,Nat.min_eq_left (by omega)]
    refine List.map_congr_left fun i member => (outside i ?_).symm
    have := List.mem_range.mp member
    omega
  have ending : ((List.range (o + k + rest)).map f).drop (o + k) = (List.range rest).map fun i => h (o + k + i) := by
    rw [List.range_add,List.map_append,List.drop_left' (by simp),List.map_map]
    exact List.map_congr_left fun i _ => (outside (o + k + i) (by omega)).symm
  rw [start,ending,List.range_add,List.range_add,List.map_append,List.map_append,List.map_map,List.map_map]
  rfl

/-- The bytes from `offset` on are read, as many as there are, and nothing else happens. -/
structure ReadsContent (m m' : Machine) (result : Int) (fileid buffer : Nat) (n offset : Int) : Prop where
  returned : result = min n (filesize (m.disk fileid) - offset)
  stored : bytesAt m'.user buffer result.toNat = ((content m.disk fileid).drop offset.toNat).take result.toNat
  kept : ∀ j, ¬(buffer ≤ j ∧ j < buffer + result.toNat) → m'.user j = m.user j
  disk : m'.disk = m.disk

/-- The bytes from `offset` on are replaced, as many as there are, and nothing else on the
volume changes. -/
structure WritesContent (m m' : Machine) (result : Int) (fileid buffer : Nat) (n offset : Int) : Prop where
  returned : result = min n (filesize (m.disk fileid) - offset)
  replaced : content m'.disk fileid = (content m.disk fileid).take offset.toNat ++ bytesAt m.user buffer result.toNat ++
    (content m.disk fileid).drop (offset.toNat + result.toNat)
  directory : m'.disk tfsDirectoryBlock = m.disk tfsDirectoryBlock
  allocation : m'.disk tfsAllocationBlock = m.disk tfsAllocationBlock
  inodes : ∀ f, IsFile m.disk f → m'.disk f = m.disk f
  others : ∀ f, IsFile m.disk f → f ≠ fileid → content m'.disk f = content m.disk f

theorem WellFormed.apart (formed : WellFormed g d) (one : IsFile d a) (two : IsFile d c) (different : c ≠ a)
    (member : b ∈ c :: dataBlocks (d c)) : b ∉ a :: dataBlocks (d a) := by
  obtain ⟨nonzero,k,inside,rfl⟩ := one
  obtain ⟨used,l,small,rfl⟩ := two
  rw [← fileBlocks_used inside nonzero]
  rw [← fileBlocks_used small used] at member
  exact formed.held.apart l k (fun same => different (by rw [same])) b member

section Write
variable {g : Gbd} {d d' : Disk} {fileid offset k : Nat} {data : Nat → UInt8}
  (written : Overwritten d d' fileid offset k data) (formed : WellFormed g d) (file : IsFile d fileid)
include written formed file

theorem Overwritten.system (low : b < 3) : d' b = d b := by
  refine written.others b fun member => ?_
  have := (formed.intact file).inside b (List.mem_cons_of_mem fileid member)
  omega

theorem Overwritten.inode (other : IsFile d f) : d' f = d f := by
  refine written.others f ?_
  by_cases same : f = fileid
  · subst same
    exact (List.nodup_cons.mp (formed.intact file).nodup).1
  · intro member
    exact formed.apart file other same List.mem_cons_self (List.mem_cons_of_mem fileid member)

theorem Overwritten.content_other (other : IsFile d f) (different : f ≠ fileid) : content d' f = content d f := by
  have blocks : ((dataBlocks (d f)).flatMap fun b => bytesAt (d' b) 0 tfsBlockSize) =
      (dataBlocks (d f)).flatMap fun b => bytesAt (d b) 0 tfsBlockSize := by
    refine List.flatMap_congr fun b member => ?_
    rw [written.others b fun taken => formed.apart file other different (List.mem_cons_of_mem f member)
      (List.mem_cons_of_mem fileid taken)]
  rw [content,written.inode formed file other,blocks,content]

theorem Overwritten.content_self (fits : offset + k ≤ filesize (d fileid)) :
    content d' fileid =
      (content d fileid).take offset ++ (List.range k).map data ++ (content d fileid).drop (offset + k) := by
  have intact := formed.intact file
  have same := written.inode formed file file
  have byte : ∀ i, i < filesize (d fileid) → fileByte d' (d fileid) i =
      if offset ≤ i ∧ i < offset + k then data (i - offset) else fileByte d (d fileid) i := by
    intro i small
    have inside : i / 512 < (dataBlocks (d fileid)).length := intact.block_needed (by omega)
    have bytes := written.bytes (i / 512) (i % 512) inside (Nat.mod_lt i (by decide))
    rw [Nat.div_add_mod] at bytes
    exact bytes
  have middle : ((List.range k).map fun i => if offset ≤ offset + i ∧ offset + i < offset + k then
      data (offset + i - offset) else fileByte d (d fileid) (offset + i)) = (List.range k).map data := by
    refine List.map_congr_left fun i member => ?_
    have small := List.mem_range.mp member
    rw [if_pos (by omega),Nat.add_sub_cancel_left]
  rw [content_eq (by rw [same]; exact intact.enough),content_eq intact.enough,same]
  rw [List.map_congr_left fun i member => byte i (List.mem_range.mp member),
    bytes_splice (fileByte d (d fileid)) _ fits fun i outside => if_neg outside,middle]

end Write

section Outside
variable {g : Gbd} {m : Machine} {fileid : Nat} (reliable : Reliable g) (formed : WellFormed g m.disk)
  (file : IsFile m.disk fileid) (buffer : Nat) (n offset : Int)
  (outside : offset < 0 ∨ filesize (m.disk fileid) < offset)
include reliable formed file outside

theorem tfsRead_outside : (tfsRead g fileid buffer n offset m).1 = vfsError ∧
    (tfsRead g fileid buffer n offset m).2.disk = m.disk := by
  have total := (totalblocks_le g).1
  have self := (formed.intact file).inside fileid List.mem_cons_self
  have bound := (formed.intact file).filesize_le
  rw [tfsRead,if_neg (by omega),Int.toNat_natCast,readBlock_ok reliable (by omega),afterRead_self,
    toS32_small (by omega),if_pos (by omega)]
  exact ⟨rfl,rfl⟩

theorem tfsWrite_outside : (tfsWrite g fileid buffer n offset m).1 = vfsError ∧
    (tfsWrite g fileid buffer n offset m).2.disk = m.disk := by
  have total := (totalblocks_le g).1
  have self := (formed.intact file).inside fileid List.mem_cons_self
  have bound := (formed.intact file).filesize_le
  rw [tfsWrite,if_neg (by omega),Int.toNat_natCast,readBlock_ok reliable (by omega),afterRead_self,
    toS32_small (by omega),if_pos (by omega)]
  exact ⟨rfl,rfl⟩

end Outside

section Inside
variable {g : Gbd} {m : Machine} {fileid : Nat} (reliable : Reliable g) (formed : WellFormed g m.disk)
  (file : IsFile m.disk fileid) (buffer : Nat) {n offset : Int} (nonneg : 0 ≤ n) (low : 0 ≤ offset)
  (high : offset ≤ filesize (m.disk fileid))
include reliable formed file nonneg low high

theorem tfsRead_content : ReadsContent m (tfsRead g fileid buffer n offset m).2 (tfsRead g fileid buffer n offset m).1
    fileid buffer n offset := by
  have intact := formed.intact file
  obtain ⟨n,rfl⟩ := Int.eq_ofNat_of_zero_le nonneg
  obtain ⟨offset,rfl⟩ := Int.eq_ofNat_of_zero_le low
  have least : min (n : Int) ((filesize (m.disk fileid) : Nat) - (offset : Nat)) =
      (min n (filesize (m.disk fileid) - offset) : Nat) := by omega
  obtain ⟨reads,same,user⟩ := tfsRead_effect reliable intact buffer n offset (by omega)
  generalize size : min n (filesize (m.disk fileid) - offset) = k at *
  refine ⟨by rw [reads,least],?_,?_,same⟩
  · rw [reads,content_eq intact.enough]
    simp only [Int.toNat_natCast]
    rw [bytes_slice _ (by omega)]
    refine List.map_congr_left fun i member => ?_
    have small := List.mem_range.mp member
    rw [user,if_pos (by omega),Nat.add_sub_cancel_left]
  · intro j outside
    rw [reads,Int.toNat_natCast] at outside
    rw [user,if_neg outside]

theorem tfsWrite_content : WritesContent m (tfsWrite g fileid buffer n offset m).2
    (tfsWrite g fileid buffer n offset m).1 fileid buffer n offset := by
  obtain ⟨n,rfl⟩ := Int.eq_ofNat_of_zero_le nonneg
  obtain ⟨offset,rfl⟩ := Int.eq_ofNat_of_zero_le low
  have least : min (n : Int) ((filesize (m.disk fileid) : Nat) - (offset : Nat)) =
      (min n (filesize (m.disk fileid) - offset) : Nat) := by omega
  obtain ⟨writes,written⟩ := tfsWrite_effect reliable (formed.intact file) buffer n offset (by omega)
  generalize size : min n (filesize (m.disk fileid) - offset) = k at *
  refine ⟨by rw [writes,least],?_,written.system formed file (by decide),written.system formed file (by decide),
    fun f other => written.inode formed file other,fun f other => written.content_other formed file other⟩
  rw [writes]
  simp only [Int.toNat_natCast]
  exact written.content_self formed file (by omega)

end Inside

theorem wellFormed_device (formed : WellFormed g d) (same : g'.blocks = g.blocks) : WellFormed g' d := by
  have total : totalblocks g' = totalblocks g := by rw [totalblocks,same,totalblocks]
  refine ⟨same ▸ formed.size,formed.system,formed.named,formed.unnamed,formed.ended,formed.distinct,?_,formed.held,?_,
    formed.enough⟩
  · rw [total]
    exact formed.inside
  · rw [total]
    exact formed.owned

/-- A read that returns as much as was asked for has read the file, whatever requests can fail. -/
theorem tfsRead_whole (formed : WellFormed g m.disk) (file : IsFile m.disk fileid) (nonneg : 0 ≤ n) (low : 0 ≤ offset)
    (returned : (tfsRead g fileid buffer n offset m).1 = n) :
    bytesAt (tfsRead g fileid buffer n offset m).2.user buffer n.toNat =
      ((content m.disk fileid).drop offset.toNat).take n.toNat ∧
    (tfsRead g fileid buffer n offset m).2.disk = m.disk := by
  have reliable : Reliable g.unfailing := fun _ => rfl
  have formed : WellFormed g.unfailing m.disk := wellFormed_device formed rfl
  have same := tfsRead_unfailing (returned.symm ▸ nonneg)
  rw [same] at returned ⊢
  by_cases high : offset ≤ filesize (m.disk fileid)
  · have reads := tfsRead_content reliable formed file buffer nonneg low high
    have stored := reads.stored
    rw [returned] at stored
    exact ⟨stored,reads.disk⟩
  · have refused := (tfsRead_outside reliable formed file buffer n offset (.inr (by omega))).1
    rw [returned] at refused
    rw [refused] at nonneg
    contradiction

/-- Reading and writing a file of a well-formed volume, and what happens outside the file. -/
theorem tfs_transfer_refines (reliable : Reliable g) (formed : WellFormed g m.disk) (file : IsFile m.disk fileid)
    (buffer : Nat) (n offset : Int) (nonneg : 0 ≤ n) :
    (0 ≤ offset ∧ offset ≤ filesize (m.disk fileid) →
      ReadsContent m (tfsRead g fileid buffer n offset m).2 (tfsRead g fileid buffer n offset m).1 fileid buffer n offset ∧
      WritesContent m (tfsWrite g fileid buffer n offset m).2 (tfsWrite g fileid buffer n offset m).1 fileid buffer n
        offset) ∧
    (offset < 0 ∨ filesize (m.disk fileid) < offset →
      ((tfsRead g fileid buffer n offset m).1 = vfsError ∧ (tfsRead g fileid buffer n offset m).2.disk = m.disk) ∧
      (tfsWrite g fileid buffer n offset m).1 = vfsError ∧ (tfsWrite g fileid buffer n offset m).2.disk = m.disk) := by
  refine ⟨?_,?_⟩
  · rintro ⟨low,high⟩
    exact ⟨tfsRead_content reliable formed file buffer nonneg low high,
      tfsWrite_content reliable formed file buffer nonneg low high⟩
  · intro outside
    exact ⟨tfsRead_outside reliable formed file buffer n offset outside,
      tfsWrite_outside reliable formed file buffer n offset outside⟩

/-- Across the end of the first block, to the end of the file. -/
theorem tfs_transfer_refines_sample :
    ReadsContent sampleFile (tfsRead sampleGbd (3 : Nat) 0 200 500 sampleFile).2
      (tfsRead sampleGbd (3 : Nat) 0 200 500 sampleFile).1 3 0 200 500 ∧
    WritesContent sampleFile (tfsWrite sampleGbd (3 : Nat) 0 200 500 sampleFile).2
      (tfsWrite sampleGbd (3 : Nat) 0 200 500 sampleFile).1 3 0 200 500 := by
  have file : IsFile sampleFile.disk 3 := ⟨by decide,24,by decide,by decide +kernel⟩
  have size : filesize (sampleFile.disk 3) = 600 := by decide +kernel
  exact (tfs_transfer_refines (fun _ => rfl) sampleFile_wellFormed file 0 200 500 (by decide)).1
    ⟨by decide,by rw [size]; decide⟩

end Buenos.Fs.Tfs
