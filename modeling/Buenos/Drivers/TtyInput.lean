import Buenos.Drivers.Tty

/-! Characters from the device to `tty_read`. The handler looks for room with the wrong
comparison: it still stores a character when the buffer is full. -/
namespace Buenos.Drivers.Tty

open Buenos.Foundation

/-- The characters that the handler has stored. -/
def accepted (arrivals : List Arrival) : List Char8 := (arrivals.filter (·.stored)).map (·.char)

def RealDevice.input (rd : RealDevice) : List Char8 := ring ttyBufSize rd.readBuf rd.readHead rd.readCount

/-- Characters are stored when there is room and dropped when there is none, and readers get
the stored ones in order. -/
structure Fifo (s : State) : Prop where
  bounded : s.rd.readCount ≤ ttyBufSize
  rule : ∀ a ∈ s.arrivals, a.stored = decide (a.buffered < ttyBufSize)
  delivered : s.returned <+: accepted s.arrivals
  kept : accepted s.arrivals = s.returned ++ s.rd.input

structure InputInvariant (s : State) : Prop where
  fifo : Fifo s
  head : s.rd.readHead < ttyBufSize

theorem initial_inputInvariant (readBuf writeBuf : Nat → Char8) : InputInvariant (initial readBuf writeBuf) :=
  ⟨⟨Nat.zero_le _,by simp [initial],List.prefix_rfl,rfl⟩,Nat.zero_lt_succ _⟩

/-! ### Steps of the write side -/

structure SameInput (s t : State) : Prop where
  buf : t.rd.readBuf = s.rd.readBuf
  head : t.rd.readHead = s.rd.readHead
  count : t.rd.readCount = s.rd.readCount
  arrivals : t.arrivals = s.arrivals
  returned : t.returned = s.returned

theorem SameInput.input (same : SameInput s t) : t.rd.input = s.rd.input := by
  rw [RealDevice.input,same.buf,same.head,same.count,RealDevice.input]

theorem InputInvariant.same (invariant : InputInvariant s) (same : SameInput s t) : InputInvariant t := by
  obtain ⟨⟨bounded,rule,delivered,kept⟩,head⟩ := invariant
  refine ⟨⟨?_,?_,?_,?_⟩,?_⟩
  · rw [same.count]; exact bounded
  · rw [same.arrivals]; exact rule
  · rw [same.arrivals,same.returned]; exact delivered
  · rw [same.arrivals,same.returned,same.input]; exact kept
  · rw [same.head]; exact head

theorem sendChars_read (busy : List Bool) (rd : RealDevice) : (sendChars busy rd).2.readBuf = rd.readBuf ∧
    (sendChars busy rd).2.readHead = rd.readHead ∧ (sendChars busy rd).2.readCount = rd.readCount := by
  induction busy generalizing rd with
  | nil => exact ⟨rfl,rfl,rfl⟩
  | cons now later ih =>
    rw [sendChars]
    split
    · exact ih (sendChar rd).2
    · exact ⟨rfl,rfl,rfl⟩

theorem fillBuffer_read (data : List Char8) (rd : RealDevice) : (fillBuffer data rd).1.readBuf = rd.readBuf ∧
    (fillBuffer data rd).1.readHead = rd.readHead ∧ (fillBuffer data rd).1.readCount = rd.readCount := by
  induction data generalizing rd with
  | nil => exact ⟨rfl,rfl,rfl⟩
  | cons c rest ih =>
    rw [fillBuffer]
    split
    · exact ih { rd with
        writeBuf := Function.update rd.writeBuf ((rd.writeHead + rd.writeCount) % ttyBufSize) c
        writeCount := rd.writeCount + 1 }
    · exact ⟨rfl,rfl,rfl⟩

theorem writeInterrupt_input (busy : List Bool) (s : State) : SameInput s (writeInterrupt busy s) := by
  obtain ⟨buf,head,count⟩ := sendChars_read busy s.rd
  exact ⟨buf,head,count,rfl,rfl⟩

theorem writeLoop_input (k : Nat) (w : Writer) (busy : Bool) (s : State) : SameInput s (writeLoop k w busy s) := by
  obtain ⟨buf,head,count⟩ := fillBuffer_read (w.data.drop w.i) s.rd
  unfold writeLoop
  split
  · split
    · exact ⟨rfl,rfl,rfl,rfl,rfl⟩
    · dsimp only
      split
      · exact ⟨buf,head,count,rfl,rfl⟩
      · exact ⟨buf,head,count,rfl,rfl⟩
  · exact ⟨rfl,rfl,rfl,rfl,rfl⟩

/-! ### The handler -/

theorem receive_stores (rd : RealDevice) (data : Char8) (room : rd.readCount < ttyBufSize) :
    (receive data rd).readCount = rd.readCount + 1 ∧ (receive data rd).readHead = rd.readHead ∧
      (receive data rd).input = rd.input ++ [data] := by
  rw [receive,if_neg (by omega)]
  exact ⟨rfl,rfl,ring_push rd.readBuf data room⟩

theorem accepted_append (arrivals : List Arrival) (a : Arrival) :
    accepted (arrivals ++ [a]) = accepted arrivals ++ if a.stored then [a.char] else [] := by
  cases stored : a.stored with
  | true => simp [accepted,stored]
  | false => simp [accepted,stored]

theorem receiveAll_invariant (chars : List Char8) (s : State) (invariant : InputInvariant s)
    (room : s.rd.readCount + chars.length ≤ ttyBufSize) : InputInvariant (receiveAll chars s) := by
  induction chars generalizing s with
  | nil => exact invariant
  | cons data later ih =>
    rw [List.length_cons] at room
    obtain ⟨count,head,input⟩ := receive_stores s.rd data (by omega)
    have stored : s.rd.readCount < (receive data s.rd).readCount := by omega
    obtain ⟨⟨_,rule,delivered,kept⟩,low⟩ := invariant
    apply ih
    · refine ⟨⟨?_,?_,?_,?_⟩,?_⟩
      · show (receive data s.rd).readCount ≤ ttyBufSize
        omega
      · intro a member
        rcases List.mem_append.mp member with old | new
        · exact rule a old
        · rw [List.mem_singleton.mp new,decide_eq_true stored,decide_eq_true (by dsimp only; omega)]
      · rw [accepted_append]
        exact delivered.trans (List.prefix_append _ _)
      · rw [accepted_append,decide_eq_true stored,if_pos rfl,kept,List.append_assoc,← input]
      · show (receive data s.rd).readHead < ttyBufSize
        rw [head]
        exact low
    · show (receive data s.rd).readCount + later.length ≤ ttyBufSize
      omega

theorem receiveAll_count_le (chars : List Char8) (s : State) : s.rd.readCount ≤ (receiveAll chars s).rd.readCount := by
  induction chars generalizing s with
  | nil => exact Nat.le_refl _
  | cons data later ih =>
    have more : s.rd.readCount ≤ (receive data s.rd).readCount := by
      unfold receive
      split
      · exact Nat.le_refl _
      · exact Nat.le_succ _
    exact Nat.le_trans more (ih { s with
      rd := receive data s.rd
      arrivals := s.arrivals ++ [⟨data,s.rd.readCount,decide (s.rd.readCount < (receive data s.rd).readCount)⟩] })

theorem receiveAll_overflows (chars : List Char8) (s : State) (fits : s.rd.readCount ≤ ttyBufSize)
    (many : ttyBufSize < s.rd.readCount + chars.length) : ttyBufSize < (receiveAll chars s).rd.readCount := by
  induction chars generalizing s with
  | nil => simp only [List.length_nil] at many; omega
  | cons data later ih =>
    rw [List.length_cons] at many
    have one : (receive data s.rd).readCount = s.rd.readCount + 1 := by
      rw [receive,if_neg (by omega)]
    by_cases last : s.rd.readCount = ttyBufSize
    · apply Nat.lt_of_lt_of_le _ (receiveAll_count_le later _)
      show ttyBufSize < (receive data s.rd).readCount
      omega
    · apply ih
      · show (receive data s.rd).readCount ≤ ttyBufSize
        omega
      · show ttyBufSize < (receive data s.rd).readCount + later.length
        omega

/-! ### Readers -/

theorem takeChars_input (len : Nat) (rd : RealDevice) (low : rd.readHead < ttyBufSize) :
    rd.input = (takeChars len rd).1 ++ (takeChars len rd).2.input ∧ (takeChars len rd).2.readHead < ttyBufSize ∧
      (takeChars len rd).2.readCount ≤ rd.readCount := by
  induction len generalizing rd with
  | zero => exact ⟨rfl,low,Nat.le_refl _⟩
  | succ left ih =>
    rw [takeChars]
    split
    · next some_ =>
      obtain ⟨n,count⟩ := Nat.exists_eq_add_one_of_ne_zero (Nat.ne_of_gt some_)
      have first : rd.input = rd.readBuf rd.readHead :: RealDevice.input { rd with
          readHead := (rd.readHead + 1) % ttyBufSize
          readCount := rd.readCount - 1 } := by
        simp only [RealDevice.input]
        rw [count,ring_pop rd.readBuf low,Nat.add_sub_cancel]
      obtain ⟨rest,head,fewer⟩ := ih { rd with
        readHead := (rd.readHead + 1) % ttyBufSize
        readCount := rd.readCount - 1 } (Nat.mod_lt _ (by decide))
      refine ⟨?_,head,?_⟩
      · rw [first,rest]
        rfl
      · exact Nat.le_trans fewer (Nat.sub_le _ _)
    · exact ⟨rfl,low,Nat.le_refl _⟩

theorem read_invariant (invariant : InputInvariant s) (len : Nat) :
    InputInvariant { s with
      rd := (takeChars len s.rd).2
      returned := s.returned ++ (takeChars len s.rd).1 } := by
  obtain ⟨⟨bounded,rule,_,kept⟩,low⟩ := invariant
  obtain ⟨input,head,fewer⟩ := takeChars_input len s.rd low
  have split : accepted s.arrivals = (s.returned ++ (takeChars len s.rd).1) ++ (takeChars len s.rd).2.input := by
    rw [kept,input,List.append_assoc]
  refine ⟨⟨Nat.le_trans fewer bounded,rule,?_,split⟩,head⟩
  rw [split]
  exact List.prefix_append _ _

/-! ### Runs -/

/-- No character is taken from the device when the buffer is full. -/
def HasRoom (e : Event) (s : State) : Prop :=
  match e with
  | .interrupt _ true _ => s.rd.readCount + s.pending.length ≤ ttyBufSize
  | _ => True

theorem step_input (e : Event) (s t : State) (invariant : InputInvariant s) (next : step e s = some t) :
    (HasRoom e s → InputInvariant t) ∧ (Fifo t → HasRoom e s) := by
  cases e with
  | arrive data =>
    cases next
    exact ⟨fun _ => invariant.same ⟨rfl,rfl,rfl,rfl,rfl⟩,fun _ => trivial⟩
  | interrupt wirq rirq error =>
    simp only [step] at next
    split at next
    swap
    · contradiction
    obtain ⟨u,same,pending,rfl⟩ : ∃ u, SameInput s u ∧ u.pending = s.pending ∧
        (if rirq then readInterrupt u else u) = t := by
      cases wirq with
      | none => exact ⟨s,⟨rfl,rfl,rfl,rfl,rfl⟩,rfl,Option.some.inj next⟩
      | some busy => exact ⟨writeInterrupt busy s,writeInterrupt_input busy s,rfl,Option.some.inj next⟩
    have before := invariant.same same
    cases rirq with
    | false => exact ⟨fun _ => before,fun _ => trivial⟩
    | true =>
      have cleared : InputInvariant { u with pending := [] } := before.same ⟨rfl,rfl,rfl,rfl,rfl⟩
      simp only [if_true,readInterrupt,HasRoom,pending]
      constructor
      · intro room
        apply receiveAll_invariant _ _ cleared
        rw [← same.count] at room
        exact room
      · intro fifo
        by_contra full
        rw [← same.count] at full
        have more := receiveAll_overflows s.pending { u with pending := [] } before.fifo.bounded (Nat.not_le.mp full)
        exact absurd fifo.bounded (Nat.not_le.mpr more)
  | read len =>
    simp only [step] at next
    split at next
    · cases next
      exact ⟨fun _ => read_invariant invariant len,fun _ => trivial⟩
    · contradiction
  | call data =>
    cases next
    exact ⟨fun _ => invariant.same ⟨rfl,rfl,rfl,rfl,rfl⟩,fun _ => trivial⟩
  | lock k =>
    simp only [step] at next
    split at next
    · cases next
      exact ⟨fun _ => invariant.same ⟨rfl,rfl,rfl,rfl,rfl⟩,fun _ => trivial⟩
    · contradiction
  | loop k busy =>
    simp only [step] at next
    split at next
    · split at next
      · cases next
        exact ⟨fun _ => invariant.same (writeLoop_input k _ busy s),fun _ => trivial⟩
      · contradiction
    · contradiction

/-- TTY input is a bounded queue in all states of a run just when no character is taken from
the device while the buffer is full. -/
theorem tty_input_fifo (readBuf writeBuf : Nat → Char8) (ran : run step events (initial readBuf writeBuf) = some s) :
    Meets step HasRoom events (initial readBuf writeBuf) ↔
      ∀ n t, run step (events.take n) (initial readBuf writeBuf) = some t → Fifo t :=
  run_exact (fun _ invariant => invariant.fifo) step_input (initial_inputInvariant readBuf writeBuf) ran

def zeroed : State := initial (fun _ => 0) (fun _ => 0)

/-- Two characters, of which a reader takes one. -/
theorem tty_input_fifo_one_read :
    ∃ s, run step [.arrive 97,.arrive 98,.interrupt none true false,.read 1] zeroed = some s ∧ Fifo s := by
  have meets : Meets step HasRoom [.arrive 97,.arrive 98,.interrupt none true false,.read 1] zeroed :=
    ⟨trivial,trivial,show 0 + 2 ≤ ttyBufSize by decide,trivial,trivial⟩
  exact ⟨_,rfl,(tty_input_fifo (fun _ => 0) (fun _ => 0) (s := _) rfl).mp meets 4 _ rfl⟩

theorem run_arrive (chars : List Char8) (s : State) :
    run step (chars.map .arrive) s = some { s with pending := s.pending ++ chars } := by
  induction chars generalizing s with
  | nil => simp
  | cons data later ih =>
    rw [List.map_cons,run_cons]
    simp only [step,Option.bind_some]
    rw [ih]
    simp

theorem run_arrive_interrupt (chars : List Char8) :
    run step (chars.map .arrive ++ [.interrupt none true false]) zeroed = some (receiveAll chars zeroed) := by
  rw [run_append,run_arrive]
  rfl

/-- 2049 characters arrive before anybody reads. -/
theorem full_buffer_stores :
    ∃ s, run step ((List.replicate 2049 97).map .arrive ++ [.interrupt none true false]) zeroed = some s ∧
      ttyBufSize < s.rd.readCount ∧ ¬Fifo s := by
  have many : ttyBufSize < zeroed.rd.readCount + (List.replicate 2049 (97 : Char8)).length := by
    rw [List.length_replicate]
    decide
  have more := receiveAll_overflows _ zeroed (Nat.zero_le _) many
  exact ⟨_,run_arrive_interrupt _,more,fun fifo => absurd fifo.bounded (Nat.not_le.mpr more)⟩

end Buenos.Drivers.Tty
