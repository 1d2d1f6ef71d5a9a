import NorFlash.Flash

/-!
# Checks — bounds checks that cannot fail

Many bounds checks are decided where they stand: the pauses of a budget are counted in
32 bits, a slave with a select line is a bit of a word, and what is left of a page is
never negative. Here each function with such checks is brought into a form without
them. The checks that stay rest on facts from elsewhere: on how long a buffer is and
on where a range ends.
-/

namespace NorFlash

variable {α β : Type}

/-! ## Waits -/

theorem PollBudget.maxPolls_lt (b : PollBudget) : b.maxPolls < word32Limit := by
  rw [maxPolls]
  split
  · exact b.timeoutUs.toNat_lt
  · exact UInt32.toNat_lt _

/-- So many pauses can be counted in 32 bits. -/
theorem PollBudget.poll_tally_eq (condition : Proc Bool) (pause : Proc Unit) {spent left : Nat}
    (h : spent + left < word32Limit) :
    poll condition pause Proc.tally spent left = poll condition pause unlimited spent left := by
  induction left generalizing spent with
  | zero => rfl
  | succ left ih =>
    have htally : Proc.tally (spent + 1) = unlimited (spent + 1) := Proc.tally_eq (by omega)
    rw [poll, poll, htally, ih (by omega)]

namespace Bus

theorem await_eq (b : Bus) (condition : Proc Bool) :
    b.await condition = b.budget.wait condition Proc.pause :=
  PollBudget.poll_tally_eq _ _ (by rw [Nat.zero_add]; exact b.budget.maxPolls_lt)

/-! ## Single registers and bytes -/

theorem activate_some (slave : UInt8) :
    activate (some slave) =
      if slave.toNat < maxSlaves then Proc.store .slaveSelect (selectWord slave)
      else Proc.log (.noSelectLine slave) >>= fun _ => deselect := by
  rw [activate]
  split
  · rename_i h
    rw [Proc.bit_eq (Nat.lt_trans h (by decide))]
    rfl
  · rfl

/-- A buffer with room for all bytes has a place for each. -/
theorem pull_some_eq {expected size left taken : Nat} (got : Bytes) (h : taken + left ≤ size) :
    pull expected (some size) left taken got = pull expected none left taken got := by
  induction left generalizing taken got with
  | zero => rfl
  | succ left ih =>
    have hplace : Proc.place taken size = pure () := Proc.place_eq (by omega)
    have hrest (byte : UInt8) : pull expected (some size) left (taken + 1) (byte :: got) =
        pull expected none left (taken + 1) (byte :: got) := ih _ (by omega)
    simp only [pull, hplace, hrest, pure_bind]

theorem receive_self (len : Nat) : receive len len = pull len none len 0 [] := by
  rw [receive, if_neg (Nat.lt_irrefl len), pull_some_eq [] (by omega)]

/-- The fillers of a probe can be counted. -/
theorem fill_succ (filler : UInt8) {left pushed : Nat} (h : pushed + (left + 1) < wordLimit) :
    fill filler (left + 1) pushed = (do
      if ← txFull then
        return some pushed
      else
        Proc.sendByte filler
        fill filler left (pushed + 1)) := by
  have hcount : Proc.count (pushed + 1) = pure (pushed + 1) := Proc.count_eq (by omega)
  simp only [fill, hcount, pure_bind]

end Bus

/-! ## Pages and slices -/

theorem pageIndex_le (offset : UInt64) : pageIndex offset ≤ pageSize :=
  Nat.le_of_lt (Nat.mod_lt _ (by decide))

theorem pageIndex_lt (offset : UInt64) : pageIndex offset < pageSize :=
  Nat.mod_lt _ (by decide)

/-- What follows a count may rely on it. -/
theorem Proc.bind_count_congr {n : Nat} {f g : Nat → Proc β} (h : n < wordLimit → f n = g n) :
    Proc.count n >>= f = Proc.count n >>= g := by
  rw [Proc.count]
  split
  · rename_i hn
    exact h hn
  · rfl

theorem Drive.bind_done (a : α) (f : α → Drive β) : liftM (Proc.done a) >>= f = f a := rfl

theorem Controller.bind_done (a : α) (f : α → StateT Controller Proc β) :
    liftM (Proc.done a) >>= f = f a := rfl

theorem Controller.Merge.bind_done (a : α) (f : α → Merge β) :
    liftM (Proc.done a) >>= f = f a := rfl

namespace Controller

/-- What follows a count may rely on it. -/
theorem bind_count_congr {n : Nat} {f g : Nat → StateT Controller Proc β}
    (h : n < wordLimit → f n = g n) :
    liftM (Proc.count n) >>= f = liftM (Proc.count n) >>= g := by
  rw [Proc.count]
  split
  · rename_i hn
    exact h hn
  · rfl

/-- A count that is not the answer. -/
theorem bind_count_return (n : Nat) (a : α) (f : α → StateT Controller Proc β) :
    liftM (do let _ ← Proc.count n; return a) >>= f = liftM (Proc.count n) >>= fun _ => f a := by
  rw [Proc.count]
  split <;> rfl

theorem pagePart_eq {left : Nat} (hleft : 0 < left) (position : UInt64) (done : Nat) :
    pagePart position left done = do
      let _ ← Proc.count (done + (pageSize - pageIndex position))
      return min left (pageSize - pageIndex position) := by
  have hindex := pageIndex_lt position
  rw [pagePart, Proc.minus_eq (Nat.le_of_lt hindex)]
  refine Proc.bind_count_congr fun _ => ?_
  rw [Proc.slice_eq (by omega) (by omega)]
  congr 1
  omega

/-- A chunk whose end leaves 64 bits is not read. -/
theorem readChunk_overrun {offset : UInt64} {len : Nat} {c : Controller}
    (h : ¬ pageIndex offset + len < wordLimit) : (readChunk offset len).run c = .trap := by
  have hlen : len ≠ 0 := by
    have hindex := pageIndex_lt offset
    rintro rfl
    simp only [pageSize, wordLimit] at *
    omega
  rw [readChunk, if_neg hlen, Proc.count, if_neg h]
  rfl

theorem readOn_succ (offset : UInt64) (fuel left done : Nat) (got : Bytes) :
    readOn offset (fuel + 1) (left + 1) done got = (do
      let position ← Proc.advance offset done
      let here := min (left + 1) (pageSize - pageIndex position)
      let _ ← Proc.count (done + (pageSize - pageIndex position))
      match ← (readChunk position here).run with
      | .error e => return ⟨got.reverse, .error e⟩
      | .ok bytes =>
        let filled ← Proc.count (done + bytes.length)
        readOn offset fuel (left + 1 - bytes.length) filled (bytes.reverseAux got)) := by
  rw [readOn]
  congr 1
  funext position
  rewrite [pagePart_eq (Nat.succ_pos left), bind_count_return]
  rfl

/-- Data that one program burst takes, in a FIFO that has room for so much. -/
theorem writeChunk_eq (offset : UInt64) (data : Bytes) :
    writeChunk offset data = if data.isEmpty then return 0 else do
      buildHeader (← get).vendor.programOpcode (Address.ofOffset offset)
      let c ← get
      let room := c.scratch.length
      let limit := min (min (room - Opcode.headerLen) c.tuning.writeMaxLen)
        (programPageSize - offset.toNat % programPageSize)
      let payload := data.take limit
      if payload.isEmpty then
        throw (.transferTooLarge (Opcode.headerLen + 1) room)
      else
        let scratch ← Proc.overwrite Opcode.headerLen payload c.scratch
        set { c with scratch }
        enableWrite
        runScratch (Opcode.headerLen + payload.length) false
        waitUntilReady
        return payload.length := by
  have hpage : offset.toNat % programPageSize ≤ programPageSize :=
    Nat.le_of_lt (Nat.mod_lt _ (by decide))
  rw [writeChunk]
  split
  · rfl
  rename_i hdata
  congr 1
  funext v
  congr 1
  funext _
  congr 1
  funext c
  rw [Proc.minus_eq hpage, Drive.bind_done]
  have hlimit : min (min (c.scratch.length - Opcode.headerLen) c.tuning.writeMaxLen)
      (programPageSize - offset.toNat % programPageSize) ≤ programPageSize :=
    Nat.le_trans (Nat.min_le_right _ _) (Nat.sub_le _ _)
  dsimp only
  generalize min (min (c.scratch.length - Opcode.headerLen) c.tuning.writeMaxLen)
    (programPageSize - offset.toNat % programPageSize) = limit at hlimit ⊢
  have hlen : (data.take limit).length = min data.length limit := by
    rw [List.length_take, Nat.min_comm]
  have htake : data.take (min data.length limit) = data.take limit := by
    rw [← hlen, ← List.prefix_iff_eq_take.mp (List.take_prefix limit data)]
  have hempty : (data.take limit).isEmpty = true ↔ min data.length limit = 0 := by
    rw [List.isEmpty_iff_length_eq_zero, hlen]
  by_cases hnone : min data.length limit = 0
  · rw [if_pos hnone, if_pos (hempty.mpr hnone), Proc.count_eq (by decide), Drive.bind_done]
  · have hcount : Opcode.headerLen + min data.length limit < wordLimit := by
      rw [programPageSize] at hlimit
      rw [Opcode.headerLen, wordLimit]
      omega
    rw [if_neg hnone, if_neg fun h => hnone (hempty.mp h), Proc.count_eq hcount, Drive.bind_done,
      Proc.split_eq (Nat.min_le_left _ _), Drive.bind_done, htake, hlen]

/-- A part of a page is read into its place in the page buffer. -/
theorem readInto_eq (offset : UInt64) {start stop : Nat} (hstart : start ≤ stop)
    (hstop : stop ≤ pageSize) :
    readInto offset start stop = (do
      let arrival ← bulkRead offset (stop - start)
      set (← Proc.overwrite start arrival.bytes (← get))
      match arrival.outcome with
      | .ok () => pure ()
      | .error e => throw e : Merge Unit) := by
  rw [readInto, Proc.slice_eq hstart hstop]
  rfl

theorem mergePage_eq (offset : UInt64) (data : Bytes) :
    mergePage offset data = if data.isEmpty then return 0 else do
      let base := pageStart offset
      let front := pageIndex offset
      let here := data.take (pageSize - front)
      let back := front + here.length
      if 0 < front then
        readInto base 0 front
      if back < pageSize then
        readInto (← Proc.advance base back) back pageSize
      set (← Proc.overwrite front here (← get))
      eraseUnit base .page
      bulkWrite base (← get)
      return here.length := by
  have hindex := pageIndex_lt offset
  have hlen : (data.take (pageSize - pageIndex offset)).length =
      min data.length (pageSize - pageIndex offset) := by
    rw [List.length_take, Nat.min_comm]
  have htake : data.take (min data.length (pageSize - pageIndex offset)) =
      data.take (pageSize - pageIndex offset) := by
    rw [← hlen, ← List.prefix_iff_eq_take.mp (List.take_prefix _ data)]
  have hcount : pageIndex offset + min data.length (pageSize - pageIndex offset) < wordLimit := by
    rw [pageSize] at *
    rw [wordLimit]
    omega
  rw [mergePage]
  dsimp only
  simp only [Proc.minus_eq (Nat.le_of_lt hindex), Merge.bind_done, Proc.count_eq hcount,
    Proc.split_eq (Nat.min_le_left _ _), htake, hlen]

end Controller

namespace Flash

theorem readPages_succ (offset : UInt64) (fuel left done : Nat) (got : Bytes) :
    readPages offset (fuel + 1) (left + 1) done got = (do
      let position ← Proc.advance offset done
      let here := min (left + 1) (pageSize - pageIndex position)
      let stop ← Proc.count (done + here)
      let arrival ← Controller.bulkRead position here
      match arrival.outcome with
      | .error e => return ⟨(arrival.bytes.reverseAux got).reverse, .error e⟩
      | .ok () =>
        readPages offset fuel (left + 1 - here) stop (arrival.bytes.reverseAux got)) := by
  rw [readPages]
  congr 1
  funext position
  rw [Proc.minus_eq (pageIndex_le position), Controller.bind_done]
  refine Controller.bind_count_congr fun _ => ?_
  rewrite [Proc.slice_eq (Nat.le_add_right _ _) (Nat.add_le_add_left (Nat.min_le_left _ _) _),
    Controller.bind_done, Nat.add_sub_cancel_left]
  rfl

end Flash

end NorFlash
