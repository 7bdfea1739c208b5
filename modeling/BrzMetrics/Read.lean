/-
Reading the stream through buffers: `Read::read` and `AsyncRead::poll_read`.

Both drain loops are written out as in the source. Each iteration of theirs first
refills the reader's buffer if it is used up, and stops if there is nothing more,
then copies as much as both buffers allow. A `Reading` is a reader with the number
of `next_sample` calls made on it so far, so that a call made now runs in the
memory of now. A loop gets fuel for one iteration more than it has bytes to fill;
running out of it, an index out of range and a `put_slice` beyond the buffer's end
are all `none`.

`Reading.rest` is what is left to deliver: the unread part of the buffer and the
lines not yet encoded. A call takes the front of it (`read_spec`,
`poll_read_spec`), and so a sequence of calls of either kind cuts it into
`Slices`.
-/
import BrzMetrics.Stream
import BrzMetrics.Slices

set_option autoImplicit false

namespace BrzMetrics

open TextFormat Slices

/-! ## The two loops -/

/-- A reader, and the number of calls of `next_sample` made on it. -/
structure Reading where
  time : ℕ
  reader : PrometheusReader

/-- A buffer of `tokio`: it has room for `capacity` bytes, the first of which are filled. -/
structure ReadBuf where
  capacity : ℕ
  filled : List UInt8
  filled_le : filled.length ≤ capacity

/-- `ReadBuf::remaining`. -/
def ReadBuf.remaining (self : ReadBuf) : ℕ := self.capacity - self.filled.length

/-- `ReadBuf::put_slice`: append, or panic if there is no room. -/
def ReadBuf.put_slice (self : ReadBuf) (bytes : List UInt8) : Option ReadBuf :=
  if h : self.filled.length + bytes.length ≤ self.capacity then
    some { capacity := self.capacity, filled := self.filled ++ bytes,
           filled_le := by rw [List.length_append]; exact h }
  else none

/-- Bytes that fit are appended. -/
theorem ReadBuf.put_slice_of_le (self : ReadBuf) (bytes : List UInt8)
    (h : bytes.length ≤ self.remaining) :
    ∃ after, self.put_slice bytes = some after ∧ after.capacity = self.capacity
      ∧ after.filled = self.filled ++ bytes
      ∧ after.remaining = self.remaining - bytes.length := by
  have hle := self.filled_le
  have hfits : self.filled.length + bytes.length ≤ self.capacity := by
    unfold remaining at h
    omega
  refine ⟨_, dif_pos hfits, rfl, rfl, ?_⟩
  simp only [remaining, List.length_append]
  omega

namespace Reading

/-- `self.offset == self.buffer.len() && !self.next_sample()`: whether the loop stops here. -/
def exhausted (f64 : F64) (env : ℕ → Memory) (self : Reading) : Option (Bool × Reading) :=
  if self.reader.offset = self.reader.buffer.length then
    (PrometheusReader.next_sample f64 (env self.time) self.reader).map
      (fun (more, reader) => (!more, { time := self.time + 1, reader := reader }))
  else some (false, self)

/-- The next `n` bytes of the buffer, `self.buffer[self.offset..self.offset + n]`, and
`self.offset += n`. -/
def advance (n : ℕ) (self : Reading) : Option (List UInt8 × Reading) :=
  if self.reader.offset + n ≤ self.reader.buffer.length then
    some ((self.reader.buffer.drop self.reader.offset).take n,
      { self with reader := { self.reader with offset := self.reader.offset + n } })
  else none

/-- The loop of `Read::read`, with `len` the length of `buf` and `filled` its filled part. -/
def read_loop (f64 : F64) (env : ℕ → Memory) (len : ℕ) :
    ℕ → List UInt8 → Reading → Option (List UInt8 × Reading)
  | 0, _, _ => none
  | fuel + 1, filled, self =>
    if filled.length < len then do
      let (stop, self) ← exhausted f64 env self
      if stop then
        return (filled, self)
      else
        let n := min (len - filled.length) (self.reader.buffer.length - self.reader.offset)
        let (bytes, self) ← advance n self
        read_loop f64 env len fuel (filled ++ bytes) self
    else
      return (filled, self)

/-- `Read::read` into a buffer of length `len`: the bytes it filled in. -/
def read (f64 : F64) (env : ℕ → Memory) (len : ℕ) (self : Reading) :
    Option (List UInt8 × Reading) := read_loop f64 env len (len + 1) [] self

/-- The loop of `AsyncRead::poll_read`. -/
def poll_loop (f64 : F64) (env : ℕ → Memory) : ℕ → ReadBuf → Reading → Option (ReadBuf × Reading)
  | 0, _, _ => none
  | fuel + 1, buf, self =>
    if buf.remaining > 0 then do
      let (stop, self) ← exhausted f64 env self
      if stop then
        return (buf, self)
      else
        let n := min buf.remaining (self.reader.buffer.length - self.reader.offset)
        let (bytes, self) ← advance n self
        let buf ← buf.put_slice bytes
        poll_loop f64 env fuel buf self
    else
      return (buf, self)

/-- `AsyncRead::poll_read`. It is always ready. -/
def poll_read (f64 : F64) (env : ℕ → Memory) (buf : ReadBuf) (self : Reading) :
    Option (ReadBuf × Reading) := poll_loop f64 env (buf.remaining + 1) buf self

/-! ## What is left to deliver -/

/-- The bytes that have not been delivered yet. -/
def rest (f64 : F64) (env : ℕ → Memory) (self : Reading) : List UInt8 :=
  self.reader.buffer.drop self.reader.offset
    ++ (entries env self.time (self.reader.lines f64)).flatMap Entry.encode

/-- Between two calls. -/
structure Ready (r : Reading) : Prop where
  valid : r.reader.Valid
  offset_le : r.reader.offset ≤ r.reader.buffer.length

variable (f64 : F64) (env : ℕ → Memory)

theorem encode_ne_nil (entry : Entry) : entry.encode ≠ [] := by simp [Entry.encode]

/-- The loop stops exactly when nothing is left; otherwise the buffer has bytes to copy. -/
theorem Ready.exhausted {r : Reading} (h : r.Ready) :
    ∃ stop r', Reading.exhausted f64 env r = some (stop, r') ∧ r'.Ready
      ∧ r'.rest f64 env = r.rest f64 env
      ∧ (stop = true → r.rest f64 env = [])
      ∧ (stop = false → r'.reader.offset < r'.reader.buffer.length) := by
  unfold Reading.exhausted
  by_cases hused : r.reader.offset = r.reader.buffer.length
  · -- the buffer is used up, so the next line is encoded
    rw [if_pos hused]
    obtain ⟨more, after, hnext, hvalid, hoffset, htakes⟩ :=
      PrometheusReader.next_sample_spec f64 (env r.time) r.reader h.valid
    rw [hnext, Option.map_some]
    have hrest : r.rest f64 env
        = (entries env r.time (r.reader.lines f64)).flatMap Entry.encode := by
      rw [rest, List.drop_eq_nil_of_le (le_of_eq hused.symm), List.nil_append]
    have hafter : ({ time := r.time + 1, reader := after } : Reading).rest f64 env
        = after.buffer ++ (entries env (r.time + 1) (after.lines f64)).flatMap Entry.encode := by
      rw [rest, hoffset, List.drop_zero]
    refine ⟨!more, _, rfl, ⟨hvalid, by simp [hoffset]⟩, ?_⟩
    rw [hafter, hrest]
    cases hlines : r.reader.lines f64 with
    | nil =>
      rw [hlines] at htakes
      -- no line is left: the buffer stays empty
      obtain ⟨rfl, hbuffer, hnone⟩ := htakes
      rw [hbuffer, hnone]
      exact ⟨rfl, fun _ => rfl, nofun⟩
    | cons line lines =>
      rw [hlines] at htakes
      obtain ⟨rfl, hbuffer, hmore⟩ := htakes
      rw [hbuffer, hmore, entries_cons, List.flatMap_cons, hoffset]
      refine ⟨rfl, nofun, fun _ => ?_⟩
      exact List.length_pos_of_ne_nil (encode_ne_nil _)
  · rw [if_neg hused]
    exact ⟨false, r, rfl, h, rfl, nofun, fun _ => lt_of_le_of_ne h.offset_le hused⟩

/-- Copying takes a part of the front of what is left that is not empty and fits. -/
theorem Ready.copy {r : Reading} (h : r.Ready)
    (hmore : r.reader.offset < r.reader.buffer.length) {room : ℕ} (hroom : 0 < room) :
    ∃ n r', min room (r.reader.buffer.length - r.reader.offset) = n ∧ 0 < n ∧ n ≤ room
      ∧ advance n r = some ((r.rest f64 env).take n, r')
      ∧ ((r.rest f64 env).take n).length = n
      ∧ r'.Ready ∧ r'.rest f64 env = (r.rest f64 env).drop n := by
  have hle := h.offset_le
  -- all that is copied comes from the buffered line
  have hlen : min room (r.reader.buffer.length - r.reader.offset)
      ≤ (r.reader.buffer.drop r.reader.offset).length := by
    rw [List.length_drop]
    exact min_le_right _ _
  refine ⟨_, { r with reader := { r.reader with
      offset := r.reader.offset + min room (r.reader.buffer.length - r.reader.offset) } },
    rfl, by omega, min_le_left _ _, ?_, ?_,
    ⟨⟨h.valid.family_le, h.valid.field_le⟩, by simp only; omega⟩, ?_⟩
  · rw [advance, if_pos (by omega), rest, List.take_append_of_le_length hlen]
  · rw [rest, List.length_take, List.length_append]
    omega
  · rw [rest, rest, List.drop_append_of_le_length hlen, List.drop_drop]
    rfl

/-- The loop of `read` fills the buffer, or delivers all that is left. -/
theorem read_loop_spec (len : ℕ) : ∀ (fuel : ℕ) (filled : List UInt8) (r : Reading), r.Ready →
    filled.length ≤ len → len - filled.length < fuel →
    ∃ r', read_loop f64 env len fuel filled r
        = some (filled ++ (r.rest f64 env).take (len - filled.length), r')
      ∧ r'.Ready ∧ r'.rest f64 env = (r.rest f64 env).drop (len - filled.length)
  | 0, _, _, _, _, hfuel => absurd hfuel (Nat.not_lt_zero _)
  | fuel + 1, filled, r, h, hle, hfuel => by
      rw [read_loop]
      by_cases hroom : filled.length < len
      · rw [if_pos hroom]
        obtain ⟨stop, r₁, hstop, hready, hrest, hend, hmore⟩ := h.exhausted f64 env
        rw [hstop]
        cases stop with
        | true =>
          -- the end: nothing was left
          refine ⟨r₁, ?_, hready, ?_⟩
          · rw [hend rfl, List.take_nil, List.append_nil]
            rfl
          · rw [hrest, hend rfl, List.drop_nil]
        | false =>
          obtain ⟨n, r₂, hn, hpos, hfits, hcopy, hlen, hready₂, hrest₂⟩ :=
            hready.copy f64 env (hmore rfl) (Nat.sub_pos_of_lt hroom)
          rw [hrest] at hcopy hlen hrest₂
          obtain ⟨r₃, hloop, hready₃, hrest₃⟩ := read_loop_spec len fuel
            (filled ++ (r.rest f64 env).take n) r₂ hready₂
            (by rw [List.length_append, hlen]; omega) (by rw [List.length_append, hlen]; omega)
          -- what this round copies and what the rest of the loop delivers
          have hsplit : len - filled.length = n + (len - (filled.length + n)) := by omega
          refine ⟨r₃, ?_, hready₃, ?_⟩
          · simp only [Option.bind_eq_bind, Option.bind_some, Bool.false_eq_true, if_false, hn,
              hcopy]
            rw [hloop, hrest₂, List.length_append, hlen, List.append_assoc, hsplit, List.take_add]
          · rw [hrest₃, hrest₂, List.length_append, hlen, List.drop_drop, hsplit]
      · rw [if_neg hroom]
        have hfull : len - filled.length = 0 := by omega
        refine ⟨r, ?_, h, ?_⟩
        · rw [hfull, List.take_zero, List.append_nil]
          rfl
        · rw [hfull, List.drop_zero]

/-- The loop of `poll_read` fills the buffer, or delivers all that is left. -/
theorem poll_loop_spec : ∀ (fuel : ℕ) (buf : ReadBuf) (r : Reading), r.Ready →
    buf.remaining < fuel →
    ∃ buf' r', poll_loop f64 env fuel buf r = some (buf', r')
      ∧ buf'.capacity = buf.capacity
      ∧ buf'.filled = buf.filled ++ (r.rest f64 env).take buf.remaining
      ∧ r'.Ready ∧ r'.rest f64 env = (r.rest f64 env).drop buf.remaining
  | 0, _, _, _, hfuel => absurd hfuel (Nat.not_lt_zero _)
  | fuel + 1, buf, r, h, hfuel => by
      rw [poll_loop]
      by_cases hroom : buf.remaining > 0
      · rw [if_pos hroom]
        obtain ⟨stop, r₁, hstop, hready, hrest, hend, hmore⟩ := h.exhausted f64 env
        rw [hstop]
        cases stop with
        | true =>
          -- the end: nothing was left
          refine ⟨buf, r₁, rfl, rfl, ?_, hready, ?_⟩
          · rw [hend rfl, List.take_nil, List.append_nil]
          · rw [hrest, hend rfl, List.drop_nil]
        | false =>
          obtain ⟨n, r₂, hn, hpos, hfits, hcopy, hlen, hready₂, hrest₂⟩ :=
            hready.copy f64 env (hmore rfl) hroom
          rw [hrest] at hcopy hlen hrest₂
          obtain ⟨buf₁, hput, hcapacity₁, hfilled₁, hremaining⟩ :=
            ReadBuf.put_slice_of_le buf ((r.rest f64 env).take n)
              (by rw [hlen]; exact hfits)
          rw [hlen] at hremaining
          obtain ⟨buf₂, r₃, hloop, hcapacity₂, hfilled₂, hready₃, hrest₃⟩ :=
            poll_loop_spec fuel buf₁ r₂ hready₂ (by omega)
          -- what this round copies and what the rest of the loop delivers
          have hsplit : buf.remaining = n + (buf.remaining - n) := by omega
          rw [hremaining] at hfilled₂ hrest₃
          refine ⟨buf₂, r₃, ?_, hcapacity₂.trans hcapacity₁, ?_, hready₃, ?_⟩
          · simp only [Option.bind_eq_bind, Option.bind_some, Bool.false_eq_true, if_false, hn,
              hcopy, hput]
            exact hloop
          · rw [hfilled₂, hfilled₁, hrest₂, List.append_assoc, hsplit, List.take_add,
              Nat.add_sub_cancel_left]
          · rw [hrest₃, hrest₂, List.drop_drop, ← hsplit]
      · rw [if_neg hroom]
        have hfull : buf.remaining = 0 := by omega
        refine ⟨buf, r, rfl, rfl, ?_, h, ?_⟩
        · rw [hfull, List.take_zero, List.append_nil]
        · rw [hfull, List.drop_zero]

/-! ## Schedules -/

/-- One call on a reader: `read` into a buffer of some length, or `poll_read` into what remains
of a buffer. -/
inductive Call where
  | read (len : ℕ)
  | poll_read (buf : ReadBuf)

/-- The room in the call's buffer. -/
def Call.size : Call → ℕ
  | .read len => len
  | .poll_read buf => buf.remaining

/-- Run a call: the bytes it delivered. -/
def Call.run (f64 : F64) (env : ℕ → Memory) (self : Reading) :
    Call → Option (List UInt8 × Reading)
  | .read len => Reading.read f64 env len self
  | .poll_read buf => do
    let (after, self) ← Reading.poll_read f64 env buf self
    return (after.filled.drop buf.filled.length, self)

/-- Run calls one after the other: the bytes each of them delivered. -/
def run (f64 : F64) (env : ℕ → Memory) : List Call → Reading → Option (List (List UInt8) × Reading)
  | [], self => some ([], self)
  | call :: calls, self => do
    let (bytes, self) ← call.run f64 env self
    let (more, self) ← run f64 env calls self
    return (bytes :: more, self)

/-- Either kind of call takes the front of what is left, as much as its buffer has room for. -/
theorem Ready.call {r : Reading} (h : r.Ready) (call : Call) :
    ∃ r', call.run f64 env r = some ((r.rest f64 env).take call.size, r')
      ∧ r'.Ready ∧ r'.rest f64 env = (r.rest f64 env).drop call.size := by
  cases call with
  | read len =>
    obtain ⟨r', hread, hready, hrest⟩ := read_loop_spec f64 env len (len + 1) [] r h
      (Nat.zero_le _) (by simp)
    exact ⟨r', hread, hready, hrest⟩
  | poll_read buf =>
    obtain ⟨buf', r', hpoll, -, hfilled, hready, hrest⟩ :=
      poll_loop_spec f64 env (buf.remaining + 1) buf r h (Nat.lt_succ_self _)
    refine ⟨r', ?_, hready, hrest⟩
    have hbytes : buf'.filled.drop buf.filled.length = (r.rest f64 env).take buf.remaining := by
      rw [hfilled, List.drop_left]
    simp only [Call.run, Reading.poll_read, hpoll, Option.bind_eq_bind, Option.bind_some, hbytes]
    rfl

/-- Calls of either kind cut what is left into slices. -/
theorem Ready.run {r : Reading} (h : r.Ready) (calls : List Call) :
    ∃ r', Reading.run f64 env calls r
        = some (slices (calls.map Call.size) (r.rest f64 env), r') ∧ r'.Ready := by
  induction calls generalizing r with
  | nil => exact ⟨r, rfl, h⟩
  | cons call calls ih =>
    obtain ⟨r₁, hcall, hready, hrest⟩ := h.call f64 env call
    obtain ⟨r₂, hrun, hready₂⟩ := ih hready
    refine ⟨r₂, ?_, hready₂⟩
    simp only [Reading.run, hcall, Option.bind_eq_bind, Option.bind_some, hrun, hrest]
    rfl

/-- A call without room changes nothing at all. -/
theorem Call.run_empty (f64 : F64) (env : ℕ → Memory) (self : Reading) {call : Call}
    (h : call.size = 0) : call.run f64 env self = some ([], self) := by
  cases call with
  | read len =>
    have hlen : len = 0 := h
    subst hlen
    rfl
  | poll_read buf =>
    have hroom : ¬ buf.remaining > 0 := by
      have : buf.remaining = 0 := h
      omega
    simp only [Call.run, Reading.poll_read, poll_loop, if_neg hroom]
    simp

end Reading

/-- Whatever the schedule of calls, and whatever happens to the counters meanwhile, a reader
delivers one stream, the encodings of its successive lines: every call succeeds and delivers as
much of what is left as its buffer has room for, so that the bytes delivered are the front of the
stream; a call that has room and delivers nothing has found the end, where it stays; and a call
without room changes nothing. With the counters at rest the stream does not depend on when the
lines are encoded. -/
theorem PrometheusReader.reads_deliver_stream (f64 : F64) (env : ℕ → Memory)
    (sources : List Source) (states : List StateSnapshot) (calls : List Reading.Call) :
    ∃ bs delivered after, Streams f64 env 0 (start sources states) bs
      ∧ Reading.run f64 env calls { time := 0, reader := start sources states }
          = some (delivered, after)
      ∧ delivered.length = calls.length
      ∧ delivered.flatten <+: bs.flatten
      ∧ (∀ i (_ : i < calls.length) (_ : i < delivered.length), (delivered[i]).length
          = min calls[i].size (bs.flatten.length - (delivered.take i).flatten.length))
      ∧ (∀ i (_ : i < calls.length) (_ : i < delivered.length), 0 < calls[i].size →
          delivered[i] = [] → (delivered.take i).flatten = bs.flatten
            ∧ ∀ j (_ : i ≤ j) (_ : j < delivered.length), delivered[j] = [])
      ∧ (∀ (r : Reading) (call : Reading.Call), call.size = 0 →
          call.run f64 env r = some ([], r))
      ∧ (∀ memory, env = (fun _ => memory) →
          bs = ((exposition f64 sources states).map (Line.entry memory)).map Entry.encode) := by
  have hready : ({ time := 0, reader := start sources states } : Reading).Ready :=
    ⟨valid_start sources states, Nat.zero_le _⟩
  have hstream : Streams f64 env 0 (start sources states) _ :=
    streams_lines 0 (valid_start sources states)
  rw [lines_start] at hstream
  have hrest : ({ time := 0, reader := start sources states } : Reading).rest f64 env
      -- at the start all of the stream is left
      = ((entries env 0 (exposition f64 sources states)).map Entry.encode).flatten := by
    rw [Reading.rest, lines_start, ← List.flatMap_def]
    rfl
  obtain ⟨after, hrun, -⟩ := hready.run f64 env calls
  rw [hrest] at hrun
  refine ⟨_, _, after, hstream, hrun, by simp, ?_, ?_, ?_, ?_, ?_⟩
  · rw [flatten_slices]
    exact List.take_prefix _ _
  · intro i hi hi'
    rw [length_getElem_slices _ _ i (by simpa using hi)]
    simp
  · -- a call with room comes back empty only after everything was delivered
    intro i hi hi' hpos hempty
    have hlen : i < (calls.map Reading.Call.size).length := by simpa using hi
    obtain ⟨hall, hdone⟩ := end_of_empty _ _ i hlen hi' (by simpa using hpos) hempty
    exact ⟨hall, fun j hij hj => hdone j hij hj⟩
  · exact fun r call h => Reading.Call.run_empty f64 env r h
  · rintro memory rfl
    rw [entries_const]

end BrzMetrics
