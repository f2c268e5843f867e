import Buenos.Drivers.Tty

/-! Characters from `tty_write` to the device. A call puts a chunk into the empty buffer, and
the chunk leaves in order, its first character perhaps without the handler. -/
namespace Buenos.Drivers.Tty

open Buenos.Foundation

def RealDevice.output (rd : RealDevice) : List Char8 := ring ttyBufSize rd.writeBuf rd.writeHead rd.writeCount

def chunk (data : List Char8) (j : Nat) : List Char8 := (data.drop (ttyBufSize * j)).take ttyBufSize
def numChunks (data : List Char8) : Nat := (data.length + ttyBufSize - 1) / ttyBufSize

/-- The data cut into pieces of `ttyBufSize`, the last one perhaps shorter. -/
def cut (data : List Char8) : List (List Char8) := (List.range (numChunks data)).map (chunk data)

theorem flatten_chunks (data : List Char8) (m : Nat) :
    ((List.range m).map (chunk data)).flatten = data.take (ttyBufSize * m) := by
  induction m with
  | zero => simp
  | succ m ih =>
    rw [List.range_succ,List.map_append,List.flatten_append,ih,Nat.mul_succ,List.take_add]
    simp [chunk]

/-- The pieces are the data, each character once. -/
theorem flatten_cut (data : List Char8) : (cut data).flatten = data := by
  rw [cut,flatten_chunks]
  apply List.take_of_length_le
  unfold numChunks ttyBufSize
  omega

def chunksOf (chunks : List (Nat × List Char8)) (k : Nat) : List (List Char8) :=
  (chunks.filter fun c => c.1 = k).map (·.2)

/-- What went out and what is buffered is made of the pieces of the calls' data, those of one
call in order, and a call that has returned has put in all of them. -/
structure Interleaved (s : State) : Prop where
  bounded : s.rd.writeCount ≤ ttyBufSize
  stream : s.sent ++ s.rd.output = (s.chunks.map (·.2)).flatten
  known : ∀ c ∈ s.chunks, c.1 < s.writers.length
  ordered : ∀ k w, s.writers[k]? = some w → ∃ m, chunksOf s.chunks k = (cut w.data).take m
  returned : ∀ k w result, s.writers[k]? = some w → w.place = .returned result →
    result = w.data.length ∧ chunksOf s.chunks k = cut w.data ∧ (chunksOf s.chunks k).flatten = w.data

/-! ### The buffer -/

theorem sendChar_output (rd : RealDevice) (low : rd.writeHead < ttyBufSize) (some_ : 0 < rd.writeCount) :
    rd.output = (sendChar rd).1 :: (sendChar rd).2.output := by
  obtain ⟨n,count⟩ := Nat.exists_eq_add_one_of_ne_zero (Nat.ne_of_gt some_)
  simp only [RealDevice.output,sendChar]
  rw [count,ring_pop rd.writeBuf low,Nat.add_sub_cancel]

theorem sendChars_output (busy : List Bool) (rd : RealDevice) (low : rd.writeHead < ttyBufSize) :
    rd.output = (sendChars busy rd).1 ++ (sendChars busy rd).2.output ∧
      (sendChars busy rd).2.writeHead < ttyBufSize ∧ (sendChars busy rd).2.writeCount ≤ rd.writeCount := by
  induction busy generalizing rd with
  | nil => exact ⟨rfl,low,Nat.le_refl _⟩
  | cons now later ih =>
    rw [sendChars]
    split
    · next idle =>
      obtain ⟨rest,head,fewer⟩ := ih (sendChar rd).2 (Nat.mod_lt _ (by decide))
      refine ⟨?_,head,Nat.le_trans fewer (Nat.sub_le _ _)⟩
      rw [sendChar_output rd low idle.2,rest]
      rfl
    · exact ⟨rfl,low,Nat.le_refl _⟩

theorem fillBuffer_output (data : List Char8) (rd : RealDevice) (fits : rd.writeCount ≤ ttyBufSize) :
    (fillBuffer data rd).2 = min data.length (ttyBufSize - rd.writeCount) ∧
      (fillBuffer data rd).1.output = rd.output ++ data.take (fillBuffer data rd).2 ∧
      (fillBuffer data rd).1.writeHead = rd.writeHead ∧
      (fillBuffer data rd).1.writeCount = rd.writeCount + (fillBuffer data rd).2 := by
  induction data generalizing rd with
  | nil => exact ⟨by simp [fillBuffer],by simp [fillBuffer],rfl,rfl⟩
  | cons c rest ih =>
    rw [fillBuffer]
    split
    · next room =>
      obtain ⟨number,output,head,count⟩ := ih { rd with
        writeBuf := Function.update rd.writeBuf ((rd.writeHead + rd.writeCount) % ttyBufSize) c
        writeCount := rd.writeCount + 1 } room
      dsimp only at number count ⊢
      refine ⟨?_,?_,head,?_⟩
      · rw [number,List.length_cons]
        omega
      · rw [output,RealDevice.output,ring_push rd.writeBuf c room,RealDevice.output,List.append_assoc,
          List.take_succ_cons]
        rfl
      · rw [count]
        omega
    · next full =>
      refine ⟨?_,by simp,rfl,rfl⟩
      dsimp only
      omega

/-! ### The calls -/

structure Progress (chunks : List (Nat × List Char8)) (k : Nat) (w : Writer) (m : Nat) : Prop where
  few : m ≤ numChunks w.data
  pieces : chunksOf chunks k = (List.range m).map (chunk w.data)
  position : w.i = min (ttyBufSize * m) w.data.length
  done : ∀ result, w.place = .returned result → result = w.data.length ∧ m = numChunks w.data

structure OutputInvariant (s : State) : Prop where
  head : s.rd.writeHead < ttyBufSize
  bounded : s.rd.writeCount ≤ ttyBufSize
  stream : s.sent ++ s.rd.output = (s.chunks.map (·.2)).flatten
  known : ∀ c ∈ s.chunks, c.1 < s.writers.length
  calls : ∀ k w, s.writers[k]? = some w → ∃ m, Progress s.chunks k w m

theorem OutputInvariant.interleaved (invariant : OutputInvariant s) : Interleaved s := by
  refine ⟨invariant.bounded,invariant.stream,invariant.known,?_,?_⟩
  · intro k w here
    obtain ⟨m,progress⟩ := invariant.calls k w here
    refine ⟨m,?_⟩
    rw [progress.pieces,cut,← List.map_take,List.take_range,Nat.min_eq_left progress.few]
  · intro k w result here there
    obtain ⟨m,progress⟩ := invariant.calls k w here
    obtain ⟨same,all⟩ := progress.done result there
    have pieces : chunksOf s.chunks k = cut w.data := by rw [progress.pieces,all,cut]
    exact ⟨same,pieces,by rw [pieces,flatten_cut]⟩

theorem initial_outputInvariant (readBuf writeBuf : Nat → Char8) : OutputInvariant (initial readBuf writeBuf) :=
  ⟨Nat.zero_lt_succ _,Nat.zero_le _,rfl,by simp [initial],by simp [initial]⟩

theorem Progress.move (progress : Progress chunks k ⟨data,i,place⟩ m) (place' : Place)
    (inside : ∀ result, place' ≠ .returned result) : Progress chunks k ⟨data,i,place'⟩ m :=
  ⟨progress.few,progress.pieces,progress.position,fun result there => absurd there (inside result)⟩

theorem Progress.wake (progress : Progress chunks k w m) : Progress chunks k w.wake m := by
  obtain ⟨data,i,place⟩ := w
  cases place with
  | asleep => exact progress.move .locking (by simp)
  | locking => exact progress
  | looping => exact progress
  | returned result => exact progress

theorem Progress.other (progress : Progress chunks k w m) (c : List Char8) (other : k ≠ l) :
    Progress (chunks ++ [(l, c)]) k w m := by
  refine ⟨progress.few,?_,progress.position,progress.done⟩
  rw [← progress.pieces]
  simp [chunksOf,Ne.symm other]

theorem Progress.next (progress : Progress chunks k ⟨data,i,place⟩ m) (more : i < data.length)
    (inside : ∀ result, place ≠ .returned result) :
    Progress (chunks ++ [(k, (data.drop i).take (min (data.drop i).length ttyBufSize))]) k
      ⟨data,i + min (data.drop i).length ttyBufSize,place⟩ (m + 1) := by
  have position : i = ttyBufSize * m := by
    have := progress.position
    dsimp only at this
    omega
  have piece : (data.drop i).take (min (data.drop i).length ttyBufSize) = chunk data m := by
    rw [chunk,← position]
    by_cases last : (data.drop i).length ≤ ttyBufSize
    · rw [Nat.min_eq_left last,List.take_length,List.take_of_length_le last]
    · rw [Nat.min_eq_right (by omega)]
  refine ⟨?_,?_,?_,fun result there => absurd there (inside result)⟩
  · dsimp only [numChunks] at *
    unfold ttyBufSize at *
    omega
  · rw [List.range_succ,List.map_append,← progress.pieces,piece]
    simp [chunksOf]
  · dsimp only
    rw [List.length_drop,Nat.mul_succ]
    omega

theorem Progress.return (progress : Progress chunks k ⟨data,i,place⟩ m) (all : ¬i < data.length) :
    Progress chunks k ⟨data,i,.returned i⟩ m := by
  have position := progress.position
  have few := progress.few
  refine ⟨few,progress.pieces,position,?_⟩
  intro result there
  cases there
  dsimp only [numChunks] at *
  unfold ttyBufSize at *
  constructor
  · omega
  · omega

/-! ### Steps -/

structure SameOutput (s t : State) : Prop where
  buf : t.rd.writeBuf = s.rd.writeBuf
  head : t.rd.writeHead = s.rd.writeHead
  count : t.rd.writeCount = s.rd.writeCount
  sent : t.sent = s.sent
  writers : t.writers = s.writers
  chunks : t.chunks = s.chunks

theorem OutputInvariant.same (invariant : OutputInvariant s) (same : SameOutput s t) : OutputInvariant t := by
  have output : t.rd.output = s.rd.output := by
    rw [RealDevice.output,same.buf,same.head,same.count,RealDevice.output]
  refine ⟨?_,?_,?_,?_,?_⟩
  · rw [same.head]; exact invariant.head
  · rw [same.count]; exact invariant.bounded
  · rw [same.sent,same.chunks,output]; exact invariant.stream
  · rw [same.chunks,same.writers]; exact invariant.known
  · rw [same.chunks,same.writers]; exact invariant.calls

theorem receiveAll_output (chars : List Char8) (s : State) : SameOutput s (receiveAll chars s) := by
  induction chars generalizing s with
  | nil => exact ⟨rfl,rfl,rfl,rfl,rfl,rfl⟩
  | cons data later ih =>
    have rd : (receive data s.rd).writeBuf = s.rd.writeBuf ∧ (receive data s.rd).writeHead = s.rd.writeHead ∧
        (receive data s.rd).writeCount = s.rd.writeCount := by
      unfold receive
      split
      · exact ⟨rfl,rfl,rfl⟩
      · exact ⟨rfl,rfl,rfl⟩
    obtain ⟨buf,head,count,sent,writers,chunks⟩ := ih { s with
      rd := receive data s.rd
      arrivals := s.arrivals ++ [⟨data,s.rd.readCount,decide (s.rd.readCount < (receive data s.rd).readCount)⟩] }
    exact ⟨buf.trans rd.1,head.trans rd.2.1,count.trans rd.2.2,sent,writers,chunks⟩

theorem takeChars_write (len : Nat) (rd : RealDevice) : (takeChars len rd).2.writeBuf = rd.writeBuf ∧
    (takeChars len rd).2.writeHead = rd.writeHead ∧ (takeChars len rd).2.writeCount = rd.writeCount := by
  induction len generalizing rd with
  | zero => exact ⟨rfl,rfl,rfl⟩
  | succ left ih =>
    rw [takeChars]
    split
    · exact ih { rd with
        readHead := (rd.readHead + 1) % ttyBufSize
        readCount := rd.readCount - 1 }
    · exact ⟨rfl,rfl,rfl⟩

theorem OutputInvariant.writeInterrupt (invariant : OutputInvariant s) (busy : List Bool) :
    OutputInvariant (writeInterrupt busy s) := by
  obtain ⟨output,head,fewer⟩ := sendChars_output busy s.rd invariant.head
  refine ⟨head,Nat.le_trans fewer invariant.bounded,?_,?_,?_⟩
  · show (s.sent ++ (sendChars busy s.rd).1) ++ (sendChars busy s.rd).2.output = (s.chunks.map (·.2)).flatten
    rw [List.append_assoc,← output]
    exact invariant.stream
  · intro c member
    have low := invariant.known c member
    simp only [Tty.writeInterrupt]
    split
    · rw [List.length_map]; exact low
    · exact low
  · intro k w here
    simp only [Tty.writeInterrupt] at here ⊢
    split at here
    · rw [List.getElem?_map] at here
      obtain ⟨v,there,rfl⟩ := Option.map_eq_some_iff.mp here
      obtain ⟨m,progress⟩ := invariant.calls k v there
      exact ⟨m,progress.wake⟩
    · exact invariant.calls k w here

theorem OutputInvariant.set (invariant : OutputInvariant s) (here : s.writers[k]? = some w) (holder : Option Nat)
    (moves : ∀ m, Progress s.chunks k w m → Progress s.chunks k v m) :
    OutputInvariant { s.set k v with holder := holder } := by
  refine ⟨invariant.head,invariant.bounded,invariant.stream,?_,?_⟩
  · intro c member
    simp only [State.set,List.length_set]
    exact invariant.known c member
  · intro l u there
    simp only [State.set,List.getElem?_set] at there ⊢
    split at there
    · next same =>
      subst same
      split at there
      · cases there
        obtain ⟨m,progress⟩ := invariant.calls k w here
        exact ⟨m,moves m progress⟩
      · contradiction
    · exact invariant.calls l u there

theorem OutputInvariant.fill (invariant : OutputInvariant s) (here : s.writers[k]? = some ⟨data,i,.looping⟩)
    (more : i < data.length) (empty : ¬0 < s.rd.writeCount) (busy : Bool) :
    OutputInvariant (writeLoop k ⟨data,i,.looping⟩ busy s) := by
  obtain ⟨number,output,head,count⟩ := fillBuffer_output (data.drop i) s.rd invariant.bounded
  have zero : s.rd.writeCount = 0 := by omega
  have none_ : s.rd.output = [] := by rw [RealDevice.output,zero,ring_empty]
  rw [zero,Nat.sub_zero] at number
  rw [none_,List.nil_append,number] at output
  rw [zero,Nat.zero_add,number] at count
  have low : (fillBuffer (data.drop i) s.rd).1.writeHead < ttyBufSize := by
    rw [head]
    exact invariant.head
  have stream := invariant.stream
  rw [none_,List.append_nil] at stream
  simp only [writeLoop,if_pos more,if_neg empty,number]
  generalize fillBuffer (data.drop i) s.rd = filled at *
  have known : ∀ c ∈ s.chunks ++ [(k, (data.drop i).take (min (data.drop i).length ttyBufSize))],
      c.1 < (s.writers.set k ⟨data,i + min (data.drop i).length ttyBufSize,.looping⟩).length := by
    intro c member
    rw [List.length_set]
    rcases List.mem_append.mp member with old | new
    · exact invariant.known c old
    · rw [List.mem_singleton.mp new]
      exact (List.getElem?_eq_some_iff.mp here).1
  have calls : ∀ l u, (s.writers.set k ⟨data,i + min (data.drop i).length ttyBufSize,.looping⟩)[l]? = some u →
      ∃ m, Progress (s.chunks ++ [(k, (data.drop i).take (min (data.drop i).length ttyBufSize))]) l u m := by
    intro l u there
    rw [List.getElem?_set] at there
    split at there
    · next same =>
      subst same
      split at there
      · cases there
        obtain ⟨m,progress⟩ := invariant.calls k _ here
        exact ⟨m + 1,progress.next more (by simp)⟩
      · contradiction
    · next other =>
      obtain ⟨m,progress⟩ := invariant.calls l u there
      exact ⟨m,progress.other _ (Ne.symm other)⟩
  have bounded : filled.1.writeCount ≤ ttyBufSize := by omega
  split
  · refine ⟨low,bounded,?_,known,calls⟩
    simp [State.set,output,← stream]
  · have some_ : 0 < filled.1.writeCount := by
      rw [count,List.length_drop]
      unfold ttyBufSize
      omega
    refine ⟨Nat.mod_lt _ (by decide),Nat.le_trans (Nat.sub_le _ _) bounded,?_,known,calls⟩
    have first := sendChar_output filled.1 low some_
    show (s.sent ++ [(sendChar filled.1).1]) ++ (sendChar filled.1).2.output = _
    rw [List.append_assoc,List.singleton_append,← first,output,stream]
    simp

theorem step_output (e : Event) (s t : State) (invariant : OutputInvariant s) (next : step e s = some t) :
    OutputInvariant t := by
  cases e with
  | arrive data =>
    cases next
    exact invariant.same ⟨rfl,rfl,rfl,rfl,rfl,rfl⟩
  | interrupt wirq rirq error =>
    simp only [step] at next
    split at next
    swap
    · contradiction
    obtain ⟨u,before,rfl⟩ : ∃ u, OutputInvariant u ∧ (if rirq then readInterrupt u else u) = t := by
      cases wirq with
      | none => exact ⟨s,invariant,Option.some.inj next⟩
      | some busy => exact ⟨_,invariant.writeInterrupt busy,Option.some.inj next⟩
    cases rirq with
    | false => exact before
    | true =>
      have cleared : OutputInvariant { u with pending := [] } := before.same ⟨rfl,rfl,rfl,rfl,rfl,rfl⟩
      exact cleared.same (receiveAll_output u.pending { u with pending := [] })
  | read len =>
    simp only [step] at next
    split at next
    · cases next
      obtain ⟨buf,head,count⟩ := takeChars_write len s.rd
      exact invariant.same ⟨buf,head,count,rfl,rfl,rfl⟩
    · contradiction
  | call data =>
    cases next
    refine ⟨invariant.head,invariant.bounded,invariant.stream,?_,?_⟩
    · intro c member
      have low := invariant.known c member
      simp only [List.length_append,List.length_singleton]
      omega
    · intro k w here
      rw [List.getElem?_append] at here
      split at here
      · exact invariant.calls k w here
      · next high =>
        rw [List.getElem?_singleton] at here
        split at here
        · cases here
          refine ⟨0,Nat.zero_le _,?_,by simp,by simp⟩
          have absent : (s.chunks.filter fun c => c.1 = k) = [] := by
            apply List.filter_eq_nil_iff.mpr
            intro c member same
            exact high (of_decide_eq_true same ▸ invariant.known c member)
          rw [chunksOf,absent]
          rfl
        · contradiction
  | lock k =>
    simp only [step] at next
    split at next
    · next data i holder here =>
      cases next
      exact invariant.set here _ fun m progress => progress.move .looping (by simp)
    · contradiction
  | loop k busy =>
    simp only [step] at next
    split at next
    · next data i here =>
      split at next
      · cases next
        by_cases more : i < data.length
        · by_cases empty : 0 < s.rd.writeCount
          · rw [writeLoop,if_pos more,if_pos empty]
            exact invariant.set here none fun m progress => progress.move .asleep (by simp)
          · exact invariant.fill here more empty busy
        · rw [writeLoop,if_neg more]
          exact invariant.set here none fun m progress => progress.return more
      · contradiction
    · contradiction

/-- TTY output over every interleaving of writers, readers and interrupts. -/
theorem tty_output_interleaved (readBuf writeBuf : Nat → Char8)
    (ran : run step events (initial readBuf writeBuf) = some s) :
    Interleaved s := by
  have invariant := run_invariant step_output (initial_outputInvariant readBuf writeBuf) ran
  exact invariant.interleaved

/-- The first character of each call goes out at once, and the second call waits until the
handler has sent the rest of the first. -/
def twoCalls : List Event :=
  [.call [97,98],.call [99],.lock 0,.loop 0 false,.loop 0 true,.lock 1,.loop 1 true,
    .interrupt (some [false]) false false,.lock 1,.loop 1 false,.loop 1 true]

theorem tty_output_interleaved_two :
    ∃ s, run step twoCalls (initial (fun _ => 0) (fun _ => 0)) = some s ∧ s.sent = [97,98,99] ∧ Interleaved s := by
  obtain ⟨s,ran,sent⟩ : ∃ s, run step twoCalls (initial (fun _ => 0) (fun _ => 0)) = some s ∧ s.sent = [97,98,99] :=
    ⟨_,rfl,rfl⟩
  exact ⟨s,ran,sent,tty_output_interleaved _ _ ran⟩

end Buenos.Drivers.Tty
