import Buenos.Foundation.Int32
import Buenos.Fs.Vfs
import Buenos.Foundation.Bytes
import Buenos.Proc.Loader

/-! `elf_parse_header` of `proc/elf.c` on the bytes of an executable. A kernel panic is
`none`. -/
namespace Buenos.Proc.Elf

open Buenos.Foundation Buenos.Vm
open Buenos.Fs (vfsError)

/-! ### The open file -/

/-- A file whose size is an `int`, and the position the next read starts at. -/
structure OpenFile where
  content : List UInt8
  seekPosition : Nat
  small : content.length < 2 ^ 31

def vfsSeek (file : OpenFile) (seekPosition : Int) : Option OpenFile :=
  if seekPosition < 0 then none else some { file with seekPosition := seekPosition.toNat }

/-- The result, the bytes stored and the moved file. -/
def vfsRead (file : OpenFile) (bufsize : Nat) : Int × List UInt8 × OpenFile :=
  if file.content.length < file.seekPosition then (vfsError, [], file)
  else
    let bytes := (file.content.drop file.seekPosition).take bufsize
    (bytes.length, bytes, { file with seekPosition := file.seekPosition + bytes.length })

/-! ### Headers -/

def sizeofEhdr : Nat := 52
def sizeofPhdr : Nat := 32

def elfMagic : Nat := 0x7f454c46
def etExec : Nat := 2
def emMips : Nat := 8
def eiClass : Nat := 4
def eiData : Nat := 5
def eiVersion : Nat := 6
def elfclass32 : Nat := 1
def elfdata2msb : Nat := 2
def evCurrent : Nat := 1

def ptNull : Nat := 0
def ptLoad : Nat := 1
def ptNote : Nat := 4
def ptPhdr : Nat := 6
def pfW : Nat := 2

def halfword (b : Bytes) (i : Nat) : Nat := (b (2 * i)).toNat * 2 ^ 8 + (b (2 * i + 1)).toNat

/-- The fields of `Elf32_Ehdr` that are read; `ident` is `e_ident.i`, the first word of
`e_ident.c`. -/
structure Ehdr where
  ident : Nat
  identClass : Nat
  identData : Nat
  identVersion : Nat
  type : Nat
  machine : Nat
  version : Nat
  entry : Nat
  phoff : Nat
  phentsize : Nat
  phnum : Nat
  deriving DecidableEq

def ehdr (b : Bytes) : Ehdr where
  ident := word b 0
  identClass := (b eiClass).toNat
  identData := (b eiData).toNat
  identVersion := (b eiVersion).toNat
  type := halfword b 8
  machine := halfword b 9
  version := word b 5
  entry := word b 6
  phoff := word b 7
  phentsize := halfword b 21
  phnum := halfword b 22

/-- The fields of `Elf32_Phdr` that are read. -/
structure Phdr where
  type : Nat
  offset : Nat
  vaddr : Nat
  filesz : Nat
  memsz : Nat
  flags : Nat
  deriving DecidableEq

def phdr (b : Bytes) : Phdr where
  type := word b 0
  offset := word b 1
  vaddr := word b 2
  filesz := word b 4
  memsz := word b 5
  flags := word b 6

def buffer (bytes : List UInt8) : Bytes := fun j => bytes.getD j 0

def Ehdr.valid (h : Ehdr) : Bool :=
  h.ident == elfMagic &&
  (h.identClass == elfclass32 && h.identData == elfdata2msb && h.machine == emMips) &&
  (h.version == evCurrent && h.identVersion == evCurrent) &&
  h.type == etExec && h.phnum != 0

/-- Memory size rounded up to the page boundary, in pages, with 32-bit arithmetic. -/
def pagesOf (memsz : Nat) : Nat := (memsz + pageSize - 1) % 2 ^ 32 / pageSize

/-! ### The loop -/

/-- `segs` and the structure filled so far. -/
structure Scan where
  segRo : Bool
  segRw : Bool
  elf : ElfInfo

def scanHeader (p : Phdr) (s : Scan) : Option Scan :=
  if p.type = ptNull ∨ p.type = ptNote ∨ p.type = ptPhdr then some s
  else if p.type = ptLoad then
    if p.flags &&& pfW ≠ 0 then
      if s.segRw then none
      else some { s with segRw := true, elf := { s.elf with
        rwLocation := p.offset, rwSize := p.filesz, rwVaddr := p.vaddr, rwPages := pagesOf p.memsz } }
    else
      if s.segRo then none
      else some { s with segRo := true, elf := { s.elf with
        roLocation := p.offset, roSize := p.filesz, roVaddr := p.vaddr, roPages := pagesOf p.memsz } }
  else none

/-- Before a turn of the loop, or where the function has left it. -/
inductive Loop where
  | panic
  | reject
  | running (position : Int) (file : OpenFile) (s : Scan)

def readHeader : Loop → Loop
  | .running position file s =>
    let r := vfsRead file sizeofPhdr
    if r.1 ≠ sizeofPhdr then .reject
    else match scanHeader (phdr (buffer r.2.1)) s with
      | none => .reject
      | some s =>
        let position := toS32 (toU32 (position + sizeofPhdr))
        match vfsSeek r.2.2 position with
        | none => .panic
        | some file => .running position file s
  | left => left

/-- `some none` is the return value 0. -/
def Loop.result : Loop → Option (Option ElfInfo)
  | .panic => none
  | .reject => some none
  | .running _ _ s => some (if s.segRo || s.segRw then some s.elf else none)

/-- All zero but for the entry point. -/
def emptyInfo (entryPoint : Nat) : ElfInfo := ⟨entryPoint,0,0,0,0,0,0,0,0⟩

def elfParseHeader (file : OpenFile) : Option (Option ElfInfo) :=
  let r := vfsRead file sizeofEhdr
  let h := ehdr (buffer r.2.1)
  if r.1 ≠ sizeofEhdr then some none
  else if !h.valid then some none
  else
    (vfsSeek r.2.2 (toS32 h.phoff)).bind fun file =>
    (readHeader^[h.phnum] (.running (toS32 h.phoff) file ⟨false,false,emptyInfo h.entry⟩)).result

/-! ### What a header table says -/

def Phdr.segment (p : Phdr) : Segment := ⟨p.offset,p.filesz,pagesOf p.memsz,p.vaddr⟩

/-- A loadable segment that is writable, or one that is not. -/
def Phdr.loads (writable : Bool) (p : Phdr) : Bool := p.type == ptLoad && (p.flags &&& pfW != 0) == writable

def Phdr.known (p : Phdr) : Bool :=
  p.type == ptNull || p.type == ptNote || p.type == ptPhdr || p.type == ptLoad

def Scan.seen (s : Scan) (writable : Bool) : Bool := if writable then s.segRw else s.segRo

/-- What one header does to the two segments. -/
structure Took (p : Phdr) (s t : Scan) : Prop where
  known : p.known = true
  fresh : ∀ w, p.loads w = true → s.seen w = false
  seen : ∀ w, t.seen w = (s.seen w || p.loads w)
  segment : ∀ w, t.elf.segment w = if p.loads w then p.segment else s.elf.segment w
  entry : t.elf.entryPoint = s.elf.entryPoint

theorem scanHeader_took (taken : scanHeader p s = some t) : Took p s t := by
  unfold scanHeader at taken
  split at taken
  · next ignored =>
    cases taken
    have other : ∀ w, p.loads w = false := by
      intro w
      rcases ignored with type | type | type <;> simp [Phdr.loads,type,ptLoad,ptNull,ptNote,ptPhdr]
    refine ⟨?_,fun w => by simp [other],fun w => by simp [other],fun w => by simp [other],rfl⟩
    rcases ignored with type | type | type <;> simp [Phdr.known,type]
  split at taken
  · next type =>
    split at taken
    · next writable =>
      have loads : ∀ w, p.loads w = w := by
        intro w
        cases w <;> simp [Phdr.loads,type,writable]
      split at taken
      · cases taken
      next fresh =>
      cases taken
      constructor
      · simp [Phdr.known,type]
      · intro w
        cases w <;> simp_all [Scan.seen]
      · intro w
        cases w <;> simp [Scan.seen,loads]
      · intro w
        cases w <;> simp [ElfInfo.segment,Phdr.segment,loads]
      · rfl
    · next readonly =>
      have loads : ∀ w, p.loads w = !w := by
        intro w
        cases w <;> simp_all [Phdr.loads]
      split at taken
      · cases taken
      next fresh =>
      cases taken
      constructor
      · simp [Phdr.known,type]
      · intro w
        cases w <;> simp_all [Scan.seen]
      · intro w
        cases w <;> simp [Scan.seen,loads]
      · intro w
        cases w <;> simp [ElfInfo.segment,Phdr.segment,loads]
      · rfl
  · cases taken

theorem scanHeader_refused (refused : scanHeader p s = none) :
    p.known = false ∨ ∃ w, p.loads w = true ∧ s.seen w = true := by
  unfold scanHeader at refused
  split at refused
  · cases refused
  next loaded =>
  split at refused
  · next type =>
    right
    split at refused
    · next writable =>
      split at refused
      · next seen => exact ⟨true,by simp [Phdr.loads,type,writable],seen⟩
      · cases refused
    · next readonly =>
      split at refused
      · next seen => exact ⟨false,by simp_all [Phdr.loads],seen⟩
      · cases refused
  · next other =>
    left
    simp only [not_or] at loaded
    simp [Phdr.known,loaded,other]

/-- The loop on headers that are all inside the file. -/
def scanHeaders : List Phdr → Scan → Option Scan
  | [], s => some s
  | p :: rest, s => (scanHeader p s).bind (scanHeaders rest)

/-- The headers that are accepted after those that filled `s`. -/
structure Acceptable (hs : List Phdr) (s : Scan) : Prop where
  known : ∀ p ∈ hs, p.known = true
  once : ∀ w, hs.countP (Phdr.loads w) + (if s.seen w then 1 else 0) ≤ 1

def loaded (hs : List Phdr) (writable : Bool) : Option Phdr := hs.find? (Phdr.loads writable)

structure Scanned (hs : List Phdr) (s t : Scan) : Prop where
  seen : ∀ w, t.seen w = (s.seen w || hs.any (Phdr.loads w))
  segment : ∀ w, t.elf.segment w = ((loaded hs w).map Phdr.segment).getD (s.elf.segment w)
  entry : t.elf.entryPoint = s.elf.entryPoint

theorem acceptable_cons (took : Took p s t) : Acceptable (p :: rest) s ↔ Acceptable rest t := by
  have counts : ∀ w, (p :: rest).countP (Phdr.loads w) + (if s.seen w then 1 else 0) =
      rest.countP (Phdr.loads w) + (if t.seen w then 1 else 0) := by
    intro w
    rw [took.seen w,List.countP_cons]
    cases here : p.loads w with
    | false => simp
    | true => simp [took.fresh w here]
  constructor
  · intro accept
    exact ⟨fun q member => accept.known q (List.mem_cons_of_mem p member),fun w => counts w ▸ accept.once w⟩
  · intro accept
    constructor
    · intro q member
      rcases List.mem_cons.mp member with rfl | member
      · exact took.known
      · exact accept.known q member
    · intro w
      rw [counts w]
      exact accept.once w

theorem Acceptable.unseen (accept : Acceptable hs s) (seen : s.seen w = true) : loaded hs w = none := by
  have none_ := accept.once w
  rw [if_pos seen] at none_
  have zero : hs.countP (Phdr.loads w) = 0 := by omega
  simpa [loaded,List.countP_eq_zero] using zero

theorem scanned_cons (took : Took p s t) (accept : Acceptable rest t) (scanned : Scanned rest t u) :
    Scanned (p :: rest) s u := by
  constructor
  · intro w
    rw [scanned.seen w,took.seen w,List.any_cons,Bool.or_assoc]
  · intro w
    rw [scanned.segment w,took.segment w]
    cases here : p.loads w with
    | false => simp [loaded,here]
    | true =>
      rw [accept.unseen (by simp [took.seen,here])]
      simp [loaded,here]
  · exact scanned.entry.trans took.entry

theorem scanHeaders_some (scan : scanHeaders hs s = some t) : Acceptable hs s ∧ Scanned hs s t := by
  induction hs generalizing s with
  | nil =>
    cases scan
    refine ⟨⟨by simp,?_⟩,⟨by simp,by simp [loaded],rfl⟩⟩
    intro w
    split <;> simp
  | cons p rest ih =>
    obtain ⟨next,first,scan⟩ := Option.bind_eq_some_iff.mp scan
    have took := scanHeader_took first
    obtain ⟨accept,scanned⟩ := ih scan
    exact ⟨(acceptable_cons took).mpr accept,scanned_cons took accept scanned⟩

theorem scanHeaders_none (scan : scanHeaders hs s = none) : ¬Acceptable hs s := by
  induction hs generalizing s with
  | nil => cases scan
  | cons p rest ih =>
    intro accept
    cases first : scanHeader p s with
    | some next =>
      rw [scanHeaders,first] at scan
      exact ih scan ((acceptable_cons (scanHeader_took first)).mp accept)
    | none =>
      rcases scanHeader_refused first with unknown | ⟨w,loads,seen⟩
      · rw [accept.known p List.mem_cons_self] at unknown
        cases unknown
      · have twice := accept.once w
        rw [if_pos seen,List.countP_cons_of_pos loads] at twice
        omega

/-! ### Reading from the file -/

theorem vfsRead_inside (file : OpenFile) (inside : file.seekPosition + n ≤ file.content.length) :
    vfsRead file n = ((n : Int), (file.content.drop file.seekPosition).take n,
      { file with seekPosition := file.seekPosition + n }) := by
  have length : ((file.content.drop file.seekPosition).take n).length = n := by simp; omega
  rw [vfsRead,if_neg (by omega)]
  simp only [length]

theorem vfsRead_short (file : OpenFile) (outside : file.content.length < file.seekPosition + n) :
    (vfsRead file n).1 ≠ n := by
  unfold vfsRead
  split
  · rw [vfsError]
    omega
  · simp
    omega

def headerAt (content : List UInt8) (position : Nat) : Phdr := phdr fun j => content.getD (position + j) 0

theorem phdr_congr (same : ∀ j < sizeofPhdr, b j = c j) : phdr b = phdr c := by
  have words : ∀ i < 8, word b i = word c i := by
    intro i small
    apply word_congr
    intro j inside
    exact same j (by unfold sizeofPhdr; omega)
  simp only [phdr,words _ (by decide : 0 < 8),words _ (by decide : 1 < 8),words _ (by decide : 2 < 8),
    words _ (by decide : 4 < 8),words _ (by decide : 5 < 8),words _ (by decide : 6 < 8)]

theorem buffer_slice (content : List UInt8) (small : j < n) :
    buffer ((content.drop p).take n) j = content.getD (p + j) 0 := by
  simp [buffer,List.getD_eq_getElem?_getD,List.getElem?_take_of_lt small]

theorem phdr_read (content : List UInt8) (p : Nat) :
    phdr (buffer ((content.drop p).take sizeofPhdr)) = headerAt content p :=
  phdr_congr fun _ small => buffer_slice content small

/-- `count` headers from a position on, `stride` bytes from one to the next. -/
def headersFrom (content : List UInt8) (position stride count : Nat) : List Phdr :=
  (List.range count).map fun i => headerAt content (position + i * stride)

theorem headersFrom_succ (content : List UInt8) (position stride count : Nat) :
    headersFrom content position stride (count + 1) =
      headerAt content position :: headersFrom content (position + stride) stride count := by
  simp only [headersFrom,List.range_succ_eq_map,List.map_cons,List.map_map,Nat.zero_mul,Nat.add_zero]
  apply congrArg (List.cons (headerAt content position))
  apply List.map_congr_left
  intro i _
  rw [Function.comp,Nat.succ_mul,Nat.add_assoc,Nat.add_comm stride]

def Inside (content : List UInt8) (position stride count : Nat) : Prop :=
  ∀ i < count, position + i * stride + sizeofPhdr ≤ content.length

theorem inside_cons : Inside content position stride (count + 1) ↔
    position + sizeofPhdr ≤ content.length ∧ Inside content (position + stride) stride count := by
  constructor
  · intro inside
    refine ⟨by simpa using inside 0 (by omega),fun i small => ?_⟩
    have later := inside (i + 1) (by omega)
    rw [Nat.add_mul,Nat.one_mul] at later
    omega
  · intro ⟨first,later⟩ i small
    cases i with
    | zero => simpa using first
    | succ i =>
      have next := later i (by omega)
      rw [Nat.add_mul,Nat.one_mul]
      omega

theorem rejected (count : Nat) : readHeader^[count] .reject = .reject :=
  Function.iterate_fixed rfl count

theorem readHeader_inside (small : content.length < 2 ^ 31) (s : Scan) (inside : position + sizeofPhdr ≤ content.length) :
    readHeader (.running position ⟨content,position,small⟩ s) =
      match scanHeader (headerAt content position) s with
      | none => .reject
      | some s => .running (position + sizeofPhdr : Nat) ⟨content,position + sizeofPhdr,small⟩ s := by
  have read := vfsRead_inside ⟨content,position,small⟩ inside
  have moved : toS32 (toU32 ((position : Int) + sizeofPhdr)) = (position + sizeofPhdr : Nat) := by
    rw [toU32_small (by omega) (by omega),toS32_small (by omega)]
    omega
  have seek : vfsSeek ⟨content,position + sizeofPhdr,small⟩ ((position + sizeofPhdr : Nat) : Int) =
      some ⟨content,position + sizeofPhdr,small⟩ := by
    rw [vfsSeek,if_neg (by omega),Int.toNat_natCast]
  simp only [readHeader,read,ne_eq,not_true_eq_false,if_false,phdr_read,moved,seek]

theorem readHeader_outside (small : content.length < 2 ^ 31) (s : Scan)
    (outside : content.length < position + sizeofPhdr) :
    readHeader (.running p ⟨content,position,small⟩ s) = .reject := by
  have short : (vfsRead ⟨content,position,small⟩ sizeofPhdr).1 ≠ sizeofPhdr := vfsRead_short _ outside
  rw [readHeader]
  exact if_pos short

/-- The loop reads the headers 32 bytes apart. -/
theorem readHeaders_eq (content : List UInt8) (small : content.length < 2 ^ 31) (count position : Nat) (s : Scan) :
    ((¬Inside content position sizeofPhdr count ∨
        scanHeaders (headersFrom content position sizeofPhdr count) s = none) ∧
      readHeader^[count] (.running position ⟨content,position,small⟩ s) = .reject) ∨
    ∃ t p file, Inside content position sizeofPhdr count ∧
      scanHeaders (headersFrom content position sizeofPhdr count) s = some t ∧
      readHeader^[count] (.running position ⟨content,position,small⟩ s) = .running p file t := by
  induction count generalizing position s with
  | zero => exact .inr ⟨s,_,_,fun i none_ => absurd none_ (Nat.not_lt_zero i),rfl,rfl⟩
  | succ count ih =>
    rw [inside_cons,headersFrom_succ,Function.iterate_succ_apply,scanHeaders]
    by_cases first : position + sizeofPhdr ≤ content.length
    · rw [readHeader_inside small s first]
      cases scanHeader (headerAt content position) s with
      | none => exact .inl ⟨.inr rfl,rejected count⟩
      | some next =>
        rcases ih (position + sizeofPhdr) next with ⟨why,rest⟩ | ⟨t,p,file,inside,scan,rest⟩
        · exact .inl ⟨why.imp_left fun outside both => outside both.2,rest⟩
        · exact .inr ⟨t,p,file,⟨first,inside⟩,scan,rest⟩
    · rw [readHeader_outside small s (Nat.lt_of_not_le first)]
      exact .inl ⟨.inl fun both => first both.1,rejected count⟩

/-! ### Accepted files -/

def fileHeader (content : List UInt8) : Ehdr := ehdr fun j => content.getD j 0

/-- The file starts with an ELF header that passes the checks. -/
def Checked (content : List UInt8) : Prop := sizeofEhdr ≤ content.length ∧ (fileHeader content).valid = true

instance (content : List UInt8) : Decidable (Checked content) := inferInstanceAs (Decidable (_ ∧ _))

/-- The program headers, `stride` bytes from one to the next. -/
def table (content : List UInt8) (stride : Nat) : List Phdr :=
  headersFrom content (fileHeader content).phoff stride (fileHeader content).phnum

structure Table (content : List UInt8) (stride : Nat) : Prop where
  inside : Inside content (fileHeader content).phoff stride (fileHeader content).phnum
  known : ∀ p ∈ table content stride, p.known = true
  present : ∃ w, (table content stride).any (Phdr.loads w) = true
  once : ∀ w, (table content stride).countP (Phdr.loads w) ≤ 1

/-- Location, size and address of a segment, zero for one that is absent. -/
def Segment.place (s : Segment) : Nat × Nat × Nat := (s.location,s.size,s.vaddr)
def placed (hs : List Phdr) (writable : Bool) : Nat × Nat × Nat :=
  ((loaded hs writable).map fun p => (p.offset,p.filesz,p.vaddr)).getD (0,0,0)

/-- The file is accepted for its headers at this distance, and the segments are theirs. -/
structure Parses (content : List UInt8) (stride : Nat) (result : Option ElfInfo) : Prop where
  accepted : result.isSome = true ↔ Checked content ∧ Table content stride
  segments : ∀ elf ∈ result, ∀ w, Segment.place (elf.segment w) = placed (table content stride) w

theorem ehdr_congr (same : ∀ j < sizeofEhdr, b j = c j) : ehdr b = ehdr c := by
  have words : ∀ i < 13, word b i = word c i := by
    intro i small
    apply word_congr
    intro j inside
    exact same j (by unfold sizeofEhdr; omega)
  have halves : ∀ i < 26, halfword b i = halfword c i := by
    intro i small
    rw [halfword,halfword,same (2 * i) (by unfold sizeofEhdr; omega),same (2 * i + 1) (by unfold sizeofEhdr; omega)]
  simp only [ehdr,words _ (by decide : 0 < 13),words _ (by decide : 5 < 13),words _ (by decide : 6 < 13),
    words _ (by decide : 7 < 13),halves _ (by decide : 8 < 26),halves _ (by decide : 9 < 26),
    halves _ (by decide : 21 < 26),halves _ (by decide : 22 < 26),same eiClass (by decide),same eiData (by decide),
    same eiVersion (by decide)]

theorem ehdr_read (content : List UInt8) : ehdr (buffer ((content.drop 0).take sizeofEhdr)) = fileHeader content := by
  apply ehdr_congr
  intro j inside
  rw [buffer_slice content inside,Nat.zero_add]

/-- What an accepted file gives. -/
structure Result (content : List UInt8) (elf : ElfInfo) : Prop where
  checked : Checked content
  table : Table content sizeofPhdr
  entry : elf.entryPoint = (fileHeader content).entry
  segment : ∀ w, elf.segment w = ((loaded (Elf.table content sizeofPhdr) w).map Phdr.segment).getD ⟨0,0,0,0⟩

theorem table_acceptable (elf : ElfInfo)
    (inside : Inside content (fileHeader content).phoff sizeofPhdr (fileHeader content).phnum) :
    Table content sizeofPhdr ↔ Acceptable (table content sizeofPhdr) ⟨false,false,elf⟩ ∧
      ∃ w, (table content sizeofPhdr).any (Phdr.loads w) = true := by
  have unseen : ∀ w, Scan.seen ⟨false,false,elf⟩ w = false := by
    intro w
    cases w <;> rfl
  constructor
  · intro good
    exact ⟨⟨good.known,fun w => by simpa [unseen] using good.once w⟩,good.present⟩
  · intro ⟨accept,present⟩
    exact ⟨inside,accept.known,present,fun w => by simpa [unseen] using accept.once w⟩

theorem running_result (scan : scanHeaders (table content sizeofPhdr) ⟨false,false,emptyInfo entry⟩ = some t)
    (inside : Inside content (fileHeader content).phoff sizeofPhdr (fileHeader content).phnum)
    (checked : Checked content) (same : entry = (fileHeader content).entry) :
    (t.segRo || t.segRw) = true ∧ Result content t.elf ∨
    (t.segRo || t.segRw) = false ∧ ¬Table content sizeofPhdr := by
  obtain ⟨accept,scanned⟩ := scanHeaders_some scan
  have either : (t.segRo || t.segRw) = true ↔ ∃ w, (table content sizeofPhdr).any (Phdr.loads w) = true := by
    have ro : t.segRo = _ := scanned.seen false
    have rw_ : t.segRw = _ := scanned.seen true
    rw [ro,rw_]
    simp [Scan.seen,Bool.exists_bool]
  have good := table_acceptable (emptyInfo entry) inside
  cases present : t.segRo || t.segRw with
  | true =>
    refine .inl ⟨rfl,checked,good.mpr ⟨accept,either.mp present⟩,scanned.entry.trans same,fun w => ?_⟩
    rw [scanned.segment w]
    cases w <;> rfl
  | false =>
    refine .inr ⟨rfl,fun table => ?_⟩
    rw [either.mpr table.present] at present
    cases present

theorem elfParseHeader_checked (small : content.length < 2 ^ 31) (checked : Checked content) :
    elfParseHeader ⟨content,0,small⟩ =
      (vfsSeek ⟨content,0 + sizeofEhdr,small⟩ (toS32 (fileHeader content).phoff)).bind fun file =>
      (readHeader^[(fileHeader content).phnum] (.running (toS32 (fileHeader content).phoff) file
        ⟨false,false,emptyInfo (fileHeader content).entry⟩)).result := by
  have read : vfsRead ⟨content,0,small⟩ sizeofEhdr =
      ((sizeofEhdr : Int), (content.drop 0).take sizeofEhdr, ⟨content,0 + sizeofEhdr,small⟩) :=
    vfsRead_inside ⟨content,0,small⟩ (by simpa using checked.1)
  simp only [elfParseHeader,read,ehdr_read,checked.2]
  rfl

theorem elfParseHeader_unchecked (small : content.length < 2 ^ 31) (bad : ¬Checked content) :
    elfParseHeader ⟨content,0,small⟩ = some none := by
  by_cases long : sizeofEhdr ≤ content.length
  · have read : vfsRead ⟨content,0,small⟩ sizeofEhdr =
        ((sizeofEhdr : Int), (content.drop 0).take sizeofEhdr, ⟨content,0 + sizeofEhdr,small⟩) :=
      vfsRead_inside ⟨content,0,small⟩ (by simpa using long)
    have invalid : (fileHeader content).valid = false := by
      rw [← Bool.not_eq_true]
      exact fun valid => bad ⟨long,valid⟩
    simp only [elfParseHeader,read,ehdr_read]
    simp [invalid]
  · have short : (vfsRead ⟨content,0,small⟩ sizeofEhdr).1 ≠ sizeofEhdr :=
      vfsRead_short _ (by simp only; omega)
    rw [elfParseHeader]
    exact if_pos short

theorem elfParseHeader_high (small : content.length < 2 ^ 31) (high : ¬(fileHeader content).phoff < 2 ^ 31) :
    elfParseHeader ⟨content,0,small⟩ = if Checked content then none else some none := by
  split
  · next checked =>
    have word := word_lt (fun j => content.getD j 0) 7
    have negative : toS32 (fileHeader content).phoff < 0 := by
      rw [toS32,if_neg high]
      simp only [fileHeader,ehdr]
      omega
    rw [elfParseHeader_checked small checked,vfsSeek,if_pos negative]
    rfl
  · next bad => exact elfParseHeader_unchecked small bad

/-- The kernel reads the headers 32 bytes apart; it does not panic. -/
theorem elfParseHeader_cases (content : List UInt8) (small : content.length < 2 ^ 31)
    (low : (fileHeader content).phoff < 2 ^ 31) :
    (∃ elf, elfParseHeader ⟨content,0,small⟩ = some (some elf) ∧ Result content elf) ∨
    elfParseHeader ⟨content,0,small⟩ = some none ∧ ¬(Checked content ∧ Table content sizeofPhdr) := by
  by_cases checked : Checked content
  · have seek : vfsSeek ⟨content,0 + sizeofEhdr,small⟩ ((fileHeader content).phoff : Int) =
        some ⟨content,(fileHeader content).phoff,small⟩ := by
      rw [vfsSeek,if_neg (by omega),Int.toNat_natCast]
    rw [elfParseHeader_checked small checked,toS32_small low,seek,Option.bind_some]
    rcases readHeaders_eq content small (fileHeader content).phnum (fileHeader content).phoff
      ⟨false,false,emptyInfo (fileHeader content).entry⟩ with ⟨why,ended⟩ | ⟨t,p,file,inside,scan,ended⟩
    · rw [ended]
      refine .inr ⟨rfl,fun ⟨_,table⟩ => ?_⟩
      rcases why with outside | refused
      · exact outside table.inside
      · exact scanHeaders_none refused ((table_acceptable _ table.inside).mp table).1
    · rw [ended,Loop.result]
      rcases running_result scan inside checked rfl with ⟨present,result⟩ | ⟨absent,bad⟩
      · exact .inl ⟨t.elf,by rw [if_pos present],result⟩
      · exact .inr ⟨by rw [if_neg (by simp [absent])],fun both => bad both.2⟩
  · exact .inr ⟨elfParseHeader_unchecked small checked,fun both => checked both.1⟩

theorem elfParseHeader_accepted (parsed : elfParseHeader ⟨content,0,small⟩ = some (some elf)) : Result content elf := by
  by_cases low : (fileHeader content).phoff < 2 ^ 31
  · rcases elfParseHeader_cases content small low with ⟨other,same,result⟩ | ⟨refused,_⟩
    · rw [parsed,Option.some.injEq,Option.some.injEq] at same
      rw [same]
      exact result
    · rw [parsed] at refused
      cases refused
  · rw [elfParseHeader_high small low] at parsed
    split at parsed <;> cases parsed

theorem Result.placed (result : Result content elf) (w : Bool) :
    Segment.place (elf.segment w) = placed (Elf.table content sizeofPhdr) w := by
  rw [result.segment w,Elf.placed]
  cases loaded (Elf.table content sizeofPhdr) w <;> rfl

/-- The tables with headers 32 bytes apart and `e_phentsize` apart are accepted or refused
together, with segments in the same places. -/
structure Alike (content : List UInt8) : Prop where
  table : Table content sizeofPhdr ↔ Table content (fileHeader content).phentsize
  placed : Table content (fileHeader content).phentsize → ∀ w,
    placed (Elf.table content sizeofPhdr) w = placed (Elf.table content (fileHeader content).phentsize) w

theorem headersFrom_one (content : List UInt8) (position stride other : Nat) (few : count ≤ 1) :
    headersFrom content position stride count = headersFrom content position other count := by
  apply List.map_congr_left
  intro i member
  have first : i = 0 := by
    have := List.mem_range.mp member
    omega
  rw [first,Nat.zero_mul,Nat.zero_mul]

theorem inside_one (few : count ≤ 1) : Inside content position stride count ↔ Inside content position other count := by
  have first : ∀ i < count, i = 0 := fun i small => by omega
  constructor
  · intro inside i small
    simpa [first i small] using inside i small
  · intro inside i small
    simpa [first i small] using inside i small

/-- Headers of the usual size, or a single one. -/
theorem alike_standard (standard : (fileHeader content).phentsize = sizeofPhdr ∨ (fileHeader content).phnum ≤ 1) :
    Alike content := by
  rcases standard with same | few
  · constructor
    · rw [same]
    · intro _ w
      rw [same]
  · have same : table content sizeofPhdr = table content (fileHeader content).phentsize :=
      headersFrom_one content _ _ _ few
    constructor
    · constructor
      · intro good
        exact ⟨(inside_one few).mp good.inside,same ▸ good.known,same ▸ good.present,same ▸ good.once⟩
      · intro good
        exact ⟨(inside_one few).mpr good.inside,same.symm ▸ good.known,same.symm ▸ good.present,
          same.symm ▸ good.once⟩
    · intro _ w
      rw [same]

/-- The kernel does not panic, and it parses the program headers of the file exactly when those
32 bytes apart are like those `e_phentsize` apart. -/
theorem elf_parse_header_exact (content : List UInt8) (small : content.length < 2 ^ 31)
    (low : (fileHeader content).phoff < 2 ^ 31) :
    (∃ result, elfParseHeader ⟨content,0,small⟩ = some result ∧
      (Parses content (fileHeader content).phentsize result ↔ (Checked content → Alike content))) ∧
    ((fileHeader content).phentsize = sizeofPhdr ∨ (fileHeader content).phnum ≤ 1 → Alike content) := by
  refine ⟨?_,alike_standard⟩
  rcases elfParseHeader_cases content small low with ⟨elf,parsed,result⟩ | ⟨parsed,refused⟩
  · refine ⟨some elf,parsed,?_⟩
    constructor
    · intro parses _
      have table := (parses.accepted.mp rfl).2
      refine ⟨⟨fun _ => table,fun _ => result.table⟩,fun _ w => ?_⟩
      rw [← result.placed w,parses.segments elf rfl w]
    · intro alike
      obtain ⟨table,same⟩ := alike result.checked
      refine ⟨⟨fun _ => ⟨result.checked,table.mp result.table⟩,fun _ => rfl⟩,?_⟩
      intro other here w
      cases here
      rw [result.placed w,same (table.mp result.table) w]
  · refine ⟨none,parsed,?_⟩
    constructor
    · intro parses checked
      have bad : ¬Table content sizeofPhdr := fun table => refused ⟨checked,table⟩
      have worse : ¬Table content (fileHeader content).phentsize := by
        intro table
        have accepted := parses.accepted.mpr ⟨checked,table⟩
        cases accepted
      exact ⟨⟨fun table => absurd table bad,fun table => absurd table worse⟩,fun table => absurd table worse⟩
    · intro alike
      constructor
      · constructor
        · intro accepted
          cases accepted
        · intro ⟨checked,table⟩
          exact absurd ⟨checked,(alike checked).table.mpr table⟩ refused
      · intro elf here
        cases here

def bigEndian (width value : Nat) : List UInt8 :=
  (List.range width).map fun i => UInt8.ofNat (value / 2 ^ (8 * (width - 1 - i)))

def ehdrBytes (entry phoff phentsize phnum : Nat) : List UInt8 :=
  bigEndian 4 elfMagic ++ [1,2,1] ++ List.replicate 9 0 ++ bigEndian 2 etExec ++ bigEndian 2 emMips ++
  bigEndian 4 evCurrent ++ bigEndian 4 entry ++ bigEndian 4 phoff ++ List.replicate 8 0 ++ bigEndian 2 sizeofEhdr ++
  bigEndian 2 phentsize ++ bigEndian 2 phnum ++ List.replicate 6 0

def phdrBytes (type offset vaddr filesz memsz flags : Nat) : List UInt8 :=
  bigEndian 4 type ++ bigEndian 4 offset ++ bigEndian 4 vaddr ++ List.replicate 4 0 ++ bigEndian 4 filesz ++
  bigEndian 4 memsz ++ bigEndian 4 flags ++ List.replicate 4 0

/-- One segment of one page without data in the file. -/
def bssProgram : List UInt8 := ehdrBytes 0x1000 52 32 1 ++ phdrBytes 1 0 0x1000 0 1 5

theorem bssProgram_small : bssProgram.length < 2 ^ 31 := by decide +kernel

theorem elf_parse_header_exact_bss : ∃ elf, elfParseHeader ⟨bssProgram,0,bssProgram_small⟩ = some (some elf) ∧
    Parses bssProgram sizeofPhdr (some elf) := by
  have some_ : (elfParseHeader ⟨bssProgram,0,bssProgram_small⟩).any Option.isSome = true := by decide +kernel
  have size : (fileHeader bssProgram).phentsize = sizeofPhdr := by decide +kernel
  obtain ⟨⟨result,parsed,exact_⟩,standard⟩ := elf_parse_header_exact bssProgram (by decide +kernel) (by decide +kernel)
  rw [size] at exact_
  have parses := exact_.mpr fun _ => standard (.inl size)
  rw [parsed] at some_
  obtain ⟨elf,rfl⟩ := Option.isSome_iff_exists.mp (by simpa using some_)
  exact ⟨elf,parsed,parses⟩

/-- Two headers of 40 bytes, of which the last eight are not used. -/
def wideProgram : List UInt8 :=
  ehdrBytes 0x1000 52 40 2 ++ phdrBytes 1 0 0x1000 0 1 5 ++ List.replicate 8 255 ++ phdrBytes 0 0 0 0 0 0

theorem wideProgram_table : Checked wideProgram ∧ Table wideProgram (fileHeader wideProgram).phentsize := by
  have size : (fileHeader wideProgram).phentsize = 40 := by decide +kernel
  rw [size]
  refine ⟨by decide +kernel,?_,by decide +kernel,⟨false,by decide +kernel⟩,by decide +kernel⟩
  unfold Inside
  decide +kernel

/-- The second one is looked for inside the first. -/
theorem wide_headers_refused : (fileHeader wideProgram).phoff < 2 ^ 31 ∧
    ¬∃ result, elfParseHeader ⟨wideProgram,0,by decide +kernel⟩ = some result ∧
      Parses wideProgram (fileHeader wideProgram).phentsize result := by
  refine ⟨by decide +kernel,?_⟩
  rintro ⟨result,parsed,parses⟩
  have refused : (elfParseHeader ⟨wideProgram,0,by decide +kernel⟩).any Option.isNone = true := by decide +kernel
  have accepted := parses.accepted.mpr wideProgram_table
  rw [parsed] at refused
  cases result <;> simp_all

end Buenos.Proc.Elf
