import Qcc730.Qat.Parser

/-! Reception of AT lines over the UART.

    The task reads one byte at a time into a buffer of its own and hands the buffer on at a carriage return, in online
    data mode without it. The fill index goes back to 0 at a carriage return and nowhere else. -/

namespace Qcc730.Qat

/-- `INPUT_BUFFER_SIZE` -/
def inputBufferSize : ℕ := 1500

/-- The locals of `UartRxTasks`, and what `Process_Input_Data_Handle` was given. The handle is set before the task
    starts. -/
structure UartRx where
  /-- `QAT_Rcv_Buff` -/
  buff : ℕ → UInt8
  total : ℕ
  endCharFound : Bool
  handed : List (List UInt8)

namespace UartRx

def init : UartRx := ⟨fun _ => nul, 0, false, []⟩

/-- `memset` of the buffer, and the index back to 0. -/
def clear (s : UartRx) : UartRx := { s with buff := fun _ => nul, total := 0, endCharFound := false }

/-- The body of the loop for a byte that was received. `online` says, by what was handed on before, whether
    `QAT_Transfer_Mode` is online data mode. No result for a store behind the buffer. -/
def rxTask (online : List (List UInt8) → Bool) (s : UartRx) (c : UInt8) : Option UartRx :=
  if s.total < inputBufferSize then
    let s := { s with buff := Function.update s.buff s.total c, total := s.total + 1 }
    let s :=
      if c = cr ∧ s.total > 1 then { s with endCharFound := true }
      else if c = cr ∧ s.total = 1 then s.clear
      else s
    if s.endCharFound then
      let total := if online s.handed then s.total - 1 else s.total
      some { s.clear with handed := s.handed ++ [(List.range total).map s.buff] }
    else some s
  else none

def run (online : List (List UInt8) → Bool) (stream : List UInt8) : Option UartRx :=
  stream.foldlM (rxTask online) init

end UartRx

/-! ### Lines of a stream -/

/-- The lines of a stream that carriage returns end, the first one with `line` before it, and what follows the last. -/
def linesFrom : List UInt8 → List UInt8 → List (List UInt8) × List UInt8
  | line, [] => ([], line)
  | line, c :: stream =>
    if c = cr then (line :: (linesFrom [] stream).1, (linesFrom [] stream).2) else linesFrom (line ++ [c]) stream

def lines (stream : List UInt8) : List (List UInt8) := (linesFrom [] stream).1

def openLine (stream : List UInt8) : List UInt8 := (linesFrom [] stream).2

/-- The lines and what follows them are the stream, with a carriage return in none of them. -/
theorem lines_spec (stream : List UInt8) :
    (lines stream).flatMap (· ++ [cr]) ++ openLine stream = stream ∧ (∀ l ∈ lines stream, cr ∉ l) ∧
      cr ∉ openLine stream := by
  suffices h : ∀ stream line, cr ∉ line →
      (linesFrom line stream).1.flatMap (· ++ [cr]) ++ (linesFrom line stream).2 = line ++ stream ∧
        (∀ l ∈ (linesFrom line stream).1, cr ∉ l) ∧ cr ∉ (linesFrom line stream).2 from h stream [] (by simp)
  intro stream
  induction stream with
  | nil =>
    intro line hline
    simpa [linesFrom] using hline
  | cons c stream ih =>
    intro line hline
    rw [linesFrom]
    split
    · rename_i hc
      obtain ⟨hflat, hlines, hopen⟩ := ih [] (by simp)
      refine ⟨?_, ?_, hopen⟩
      · simp [hflat, hc]
      · simpa using ⟨hline, hlines⟩
    · rename_i hc
      obtain ⟨hflat, hlines, hopen⟩ := ih (line ++ [c]) (by simpa [hline] using Ne.symm hc)
      refine ⟨?_, hlines, hopen⟩
      rw [hflat, List.append_assoc]
      rfl

/-- What is to be handed on of some lines after `handed`: those that are not empty, each with its carriage return
    unless the mode is online data mode then. -/
def handOn (online : List (List UInt8) → Bool) (handed : List (List UInt8)) (ls : List (List UInt8)) :
    List (List UInt8) :=
  ls.foldl (fun handed l =>
    if l = [] then handed else handed ++ [if online handed then l else l ++ [cr]]) handed

/-- The stream is received within the buffer, and its lines are handed on as they are. -/
def ReceivedIntact (online : List (List UInt8) → Bool) (stream : List UInt8) : Prop :=
  ∃ s, UartRx.run online stream = some s ∧ s.handed = handOn online [] (lines stream)

/-- Lines that fit into the buffer with their carriage returns, and what follows that fits. -/
def Fit (ls : List (List UInt8) × List UInt8) : Prop :=
  (∀ l ∈ ls.1, l.length + 1 ≤ inputBufferSize) ∧ ls.2.length ≤ inputBufferSize

/-! ### Reception -/

namespace UartRx

variable {s : UartRx} {online : List (List UInt8) → Bool} {line stream : List UInt8} {c : UInt8}

/-- Between two bytes: the buffer holds the line so far. -/
structure Holds (s : UartRx) (line : List UInt8) : Prop where
  text : (List.range s.total).map s.buff = line
  off : s.endCharFound = false

theorem Holds.total (h : s.Holds line) : s.total = line.length := by
  rw [← h.text]
  simp

theorem holds_clear : s.clear.Holds [] := ⟨rfl, rfl⟩

theorem holds_init : init.Holds [] := ⟨rfl, rfl⟩

/-- The buffer after a store. -/
theorem Holds.store (h : s.Holds line) (c : UInt8) :
    (List.range (s.total + 1)).map (Function.update s.buff s.total c) = line ++ [c] := by
  rw [List.range_succ, List.map_append, List.map_singleton, Function.update_self, ← h.text]
  congr 1
  refine List.map_congr_left fun i hi => Function.update_of_ne ?_ ..
  exact (List.mem_range.mp hi).ne

theorem rxTask_full (h : s.Holds line) (hge : inputBufferSize ≤ line.length) : s.rxTask online c = none := by
  rw [rxTask, if_neg (by rw [h.total]; omega)]

theorem rxTask_other (online : List (List UInt8) → Bool) (h : s.Holds line) (hlt : line.length < inputBufferSize)
    (hc : c ≠ cr) :
    ∃ s', s.rxTask online c = some s' ∧ s'.Holds (line ++ [c]) ∧ s'.handed = s.handed := by
  rw [rxTask, if_pos (by rw [h.total]; exact hlt)]
  simp only [hc, false_and, if_false, h.off, Bool.false_eq_true]
  exact ⟨_, rfl, ⟨h.store c, rfl⟩, rfl⟩

theorem rxTask_cr (online : List (List UInt8) → Bool) (h : s.Holds line) (hlt : line.length < inputBufferSize) :
    ∃ s', s.rxTask online cr = some s' ∧ s'.Holds [] ∧ s'.handed = handOn online s.handed [line] := by
  have htotal := h.total
  rw [rxTask, if_pos (by rw [htotal]; exact hlt)]
  by_cases hline : line = []
  · subst hline
    have hzero : s.total = 0 := htotal
    simp only [hzero, true_and, show ¬ 0 + 1 > 1 by omega, if_false, if_true, clear, Bool.false_eq_true]
    exact ⟨_, rfl, holds_clear, by simp [handOn]⟩
  · have hpos : s.total + 1 > 1 := by
      rw [htotal]
      have := List.length_pos_iff.mpr hline
      omega
    simp only [hpos, and_self, if_true]
    refine ⟨_, rfl, ⟨rfl, rfl⟩, ?_⟩
    simp only [handOn, List.foldl_cons, List.foldl_nil, if_neg hline]
    congr 2
    -- the carriage return is in the buffer behind the line
    by_cases honline : online s.handed
    · simp only [honline, if_true, Nat.add_sub_cancel]
      rw [← h.text]
      exact List.map_congr_left fun i hi => Function.update_of_ne (List.mem_range.mp hi).ne ..
    · simp only [honline]
      exact h.store cr

/-- The line so far is the start of the next one, or of what follows the last. -/
theorem not_fit_of_long (hge : inputBufferSize ≤ line.length) : ¬ Fit (linesFrom line (c :: stream)) := by
  induction stream generalizing line c with
  | nil =>
    rw [linesFrom]
    split
    · rintro ⟨hlines, -⟩
      have := hlines line List.mem_cons_self
      omega
    · rintro ⟨-, hopen⟩
      simp only [linesFrom, List.length_append, List.length_singleton] at hopen
      omega
  | cons d stream ih =>
    rw [linesFrom]
    split
    · rintro ⟨hlines, -⟩
      have := hlines line List.mem_cons_self
      omega
    · refine ih ?_
      rw [List.length_append]
      omega

/-- From any point on, with the line so far in the buffer. -/
theorem run_iff (h : s.Holds line) (hlen : line.length ≤ inputBufferSize) :
    (∃ s', stream.foldlM (rxTask online) s = some s' ∧
      s'.handed = handOn online s.handed (linesFrom line stream).1) ↔ Fit (linesFrom line stream) := by
  induction stream generalizing s line with
  | nil => exact iff_of_true ⟨s, rfl, rfl⟩ ⟨by simp [linesFrom], hlen⟩
  | cons c stream ih =>
    rw [List.foldlM_cons]
    by_cases hfull : inputBufferSize ≤ line.length
    · refine iff_of_false ?_ (not_fit_of_long hfull)
      rw [rxTask_full h hfull]
      rintro ⟨s', hs', -⟩
      cases hs'
    · have hlt := not_le.mp hfull
      rw [linesFrom]
      by_cases hc : c = cr
      · subst hc
        obtain ⟨s', hs', hholds, hhanded⟩ := rxTask_cr online h hlt
        have hfit : Fit (line :: (linesFrom [] stream).1, (linesFrom [] stream).2) ↔ Fit (linesFrom [] stream) := by
          simp only [Fit, List.forall_mem_cons]
          exact ⟨fun h => ⟨h.1.2, h.2⟩, fun h => ⟨⟨hlt, h.1⟩, h.2⟩⟩
        rw [hs', if_pos rfl, hfit, ← ih hholds (Nat.zero_le _), hhanded]
        rfl
      · obtain ⟨s', hs', hholds, hhanded⟩ := rxTask_other online h hlt hc
        have hle : (line ++ [c]).length ≤ inputBufferSize := by simpa using hlt
        rw [hs', if_neg hc, ← ih hholds hle, hhanded]
        rfl

end UartRx

/-- Reception stays within the buffer and hands the lines on as they are exactly if each line of the stream, with its
    carriage return, and what follows the last one fit into the buffer. -/
theorem received_intact_iff (online : List (List UInt8) → Bool) (stream : List UInt8) :
    ReceivedIntact online stream ↔ Fit (lines stream, openLine stream) :=
  UartRx.run_iff UartRx.holds_init (Nat.zero_le _)

/-- 1501 characters without a carriage return. -/
theorem long_line_not_received : ¬ ReceivedIntact (fun _ => false) (List.replicate 1501 0x41) := by
  have hplain : ∀ n line, linesFrom line (List.replicate n 0x41) = ([], line ++ List.replicate n 0x41) := by
    intro n
    induction n with
    | zero => simp [linesFrom]
    | succ n ih =>
      intro line
      rw [List.replicate_succ, linesFrom, if_neg (by decide), ih, List.append_assoc]
      rfl
  intro h
  have hfit := (UartRx.run_iff UartRx.holds_init (Nat.zero_le _)).mp h
  rw [hplain] at hfit
  have hlen := hfit.2
  rw [List.nil_append, List.length_replicate] at hlen
  exact absurd hlen (by decide)

end Qcc730.Qat
