import ForwardProxy.Lib.Transition
import ForwardProxy.Server.LogLine

/-!
# The access log file

`AccessLog` of `http.hpp` with any number of workers that write to it. A `write` takes the lock
twice, for the time and for the line, and what other workers do in between is any of the other
critical sections. The bytes in the file and in the buffer are at every point the lines of the
writes in the order of their second sections (`log_complete`).
-/

namespace ForwardProxy

open Lib.Interaction Lib.Transition

/-- `flush_bytes_`, which nothing sets. -/
def flushBytes : ℕ := 64 * 1024

/-- `AccessLog`: the file, the buffer before it, and the time of the last line with its text. -/
structure AccessLog where
  /-- What was written to the file since it was opened; `none` where there is no file. -/
  file : Option Bytes := none
  toStdout : Bool := true
  lines : UInt64 := 0
  buf : Bytes := []
  immediate : Bool := false
  cachedSec : ℤ := 0
  cachedPrefix : Bytes := []
  stdout : Bytes := []

namespace AccessLog

/-- `open`, which succeeds for a file if `opens`. An empty path is standard output only. -/
def openLog (log : AccessLog) (path : Bytes) (alsoStdout immediate opens : Bool) :
    Bool × AccessLog :=
  let log := { log with toStdout := alsoStdout || path = [], immediate := immediate }
  if path = [] then (true, log)
  else if opens then (true, { log with file := some [] })
  else (false, log)

/-- `flush_locked`: what is in the buffer goes to the file, if there is one. -/
def flushLocked (log : AccessLog) : AccessLog :=
  match log.file with
  | some bytes => { log with file := some (bytes ++ log.buf), buf := [] }
  | none => { log with buf := [] }

/-- `flush`. -/
def flush (log : AccessLog) : AccessLog := log.flushLocked

/-- The destructor. -/
def destroy (log : AccessLog) : AccessLog := log.flushLocked

/-- The first critical section of `write`: the time, of which the part down to the second is kept
for the next line. `snprintf` has room for 63 bytes. -/
def stamp (log : AccessLog) (sec : ℤ) (nsec : ℕ) : Bytes × AccessLog :=
  let log :=
    if sec ≠ log.cachedSec then
      { log with cachedPrefix := formatTime (gmtime sec), cachedSec := sec }
    else log
  ((log.cachedPrefix ++ str "." ++ padded 3 (nsec / 1000000) ++ str "Z").take 63, log)

/-- The second critical section of `write`. `fputs` stops at a NUL. -/
def append (log : AccessLog) (line : Bytes) : AccessLog :=
  let log := { log with lines := log.lines + 1 }
  let log :=
    if log.file.isSome then
      let log := { log with buf := log.buf ++ line ++ [LF] }
      if log.immediate || flushBytes ≤ log.buf.length then log.flushLocked else log
    else log
  if log.toStdout then
    { log with stdout := log.stdout ++ line.takeWhile (fun c => c ≠ NUL) ++ [LF] }
  else log

/-! ## What the sections do -/

/-- A stamp has the characters of a stamp only, and so has the text that is kept for the next
one. -/
theorem isStamp_stamp {log : AccessLog} (h : ∀ c ∈ log.cachedPrefix, isStamp c = true) (sec : ℤ)
    (nsec : ℕ) : (∀ c ∈ (log.stamp sec nsec).1, isStamp c = true) ∧
      ∀ c ∈ (log.stamp sec nsec).2.cachedPrefix, isStamp c = true := by
  have hprefix : ∀ c ∈ (log.stamp sec nsec).2.cachedPrefix, isStamp c = true := by
    unfold stamp
    dsimp only
    split
    · exact fun c hc => isStamp_formatTime hc
    · exact h
  refine ⟨fun c hc => ?_, hprefix⟩
  have hdot : ∀ c ∈ str ".", isStamp c = true := by
    intro c hc
    obtain rfl : c = 46 := by simpa [str] using hc
    decide
  have hzone : ∀ c ∈ str "Z", isStamp c = true := by
    intro c hc
    obtain rfl : c = 90 := by simpa [str] using hc
    decide
  have hmem := List.mem_of_mem_take hc
  simp only [List.mem_append] at hmem
  rcases hmem with ((hc | hc) | hc) | hc
  · exact hprefix c hc
  · exact hdot c hc
  · exact isStamp_padded hc
  · exact hzone c hc

/-- The time leaves the lines alone. -/
theorem stamp_eq (log : AccessLog) (sec : ℤ) (nsec : ℕ) : ∃ cachedSec cachedPrefix,
    (log.stamp sec nsec).2 = { log with cachedSec := cachedSec, cachedPrefix := cachedPrefix } := by
  unfold stamp
  dsimp only
  split
  · exact ⟨_, _, rfl⟩
  · exact ⟨log.cachedSec, log.cachedPrefix, rfl⟩

/-- With a file, a line goes behind what is in the buffer, and with it into the file if it is time.
-/
theorem append_eq {log : AccessLog} {bytes : Bytes} (h : log.file = some bytes) (line : Bytes) :
    ∃ stdout, log.append line =
      if log.immediate || flushBytes ≤ (log.buf ++ line ++ [LF]).length then
        { log with
          lines := log.lines + 1
          file := some (bytes ++ (log.buf ++ line ++ [LF]))
          buf := []
          stdout := stdout }
      else
        { log with
          lines := log.lines + 1
          buf := log.buf ++ line ++ [LF]
          stdout := stdout } := by
  unfold append
  simp only [h, Option.isSome_some, if_true, flushLocked]
  split
  · split
    · exact ⟨_, rfl⟩
    · exact ⟨log.stdout, rfl⟩
  · split
    · exact ⟨_, rfl⟩
    · exact ⟨log.stdout, rfl⟩

end AccessLog

/-! ## Workers -/

/-- A critical section: the first of a `write` of worker `w`, with the line that it leads to, the
second, or a `flush`. -/
inductive LogEvent
  | stamp (w : ℕ) (line : Bytes)
  | append (w : ℕ) (line : Bytes)
  | flush

/-- The log, and for each worker the line of a `write` that is between its sections. -/
structure LogState where
  log : AccessLog
  pending : ℕ → Option Bytes := fun _ => none

/-- The steps of the workers. A worker that is not in a `write` may begin one of any entry that the
program makes, at any time of the clock. -/
inductive LogStep : LogState → LogEvent → LogState → Prop
  | stamp {s : LogState} {w : ℕ} (sec : ℤ) (nsec : ℕ) {acl : AccessControl} (hacl : acl.Loaded)
      {raw : Bytes} {e : Entry} (he : e.Genuine acl raw) (hidle : s.pending w = none) :
      LogStep s (.stamp w (logLine (s.log.stamp sec nsec).1 e))
        { log := (s.log.stamp sec nsec).2
          pending := Function.update s.pending w (some (logLine (s.log.stamp sec nsec).1 e)) }
  | append {s : LogState} {w : ℕ} {line : Bytes} (hline : s.pending w = some line) :
      LogStep s (.append w line)
        { log := s.log.append line, pending := Function.update s.pending w none }
  | flush {s : LogState} : LogStep s .flush { s with log := s.log.flush }

/-- The log with the workers that write to it. -/
def logSystem (log : AccessLog) : System LogState LogEvent := { init := { log }, step := LogStep }

/-- The lines of the first sections, in order, each with its worker. -/
def stampedLines (evs : List LogEvent) : List (ℕ × Bytes) :=
  evs.filterMap fun
    | .stamp w line => some (w, line)
    | _ => none

/-- The lines of the second sections. -/
def appendedLines (evs : List LogEvent) : List (ℕ × Bytes) :=
  evs.filterMap fun
    | .append w line => some (w, line)
    | _ => none

/-- A line is that of an entry of the program. -/
def IsLogLine (line : Bytes) : Prop :=
  ∃ (ts : Bytes) (acl : AccessControl) (raw : Bytes) (e : Entry),
    acl.Loaded ∧ e.Genuine acl raw ∧ line = logLine ts e

/-- The lines of one worker. -/
def linesOf (w : ℕ) (lines : List (ℕ × Bytes)) : List Bytes :=
  (lines.filter fun l => l.1 = w).map Prod.snd

/-- What holds of the log after any critical sections. -/
structure LogInv (immediate : Bool) (evs : List LogEvent) (s : LogState) : Prop where
  written : ∃ bytes, s.log.file = some bytes ∧
    bytes ++ s.log.buf = Lib.Lines.unlines LF ((appendedLines evs).map Prod.snd)
  counted : s.log.lines = UInt64.ofNat (appendedLines evs).length
  short : s.log.buf.length < flushBytes
  mode : s.log.immediate = immediate ∧ (immediate = true → s.log.buf = [])
  stamp : ∀ c ∈ s.log.cachedPrefix, isStamp c = true
  /-- What a worker has begun is appended, or is still pending. -/
  conserved : ∀ w, linesOf w (appendedLines evs) ++ (s.pending w).toList =
    linesOf w (stampedLines evs)
  oneLine : ∀ l ∈ stampedLines evs, LF ∉ l.2 ∧ IsLogLine l.2

/-- A line of a worker is among the lines that are written. -/
theorem mem_linesOf {w : ℕ} {line : Bytes} {lines : List (ℕ × Bytes)} :
    line ∈ linesOf w lines ↔ (w, line) ∈ lines := by
  simp [linesOf]

/-- The lines of two parts, one after the other. -/
theorem linesOf_append (w : ℕ) (lines lines' : List (ℕ × Bytes)) :
    linesOf w (lines ++ lines') = linesOf w lines ++ linesOf w lines' := by
  simp [linesOf]

/-- The line of one worker only. -/
theorem linesOf_singleton (v w : ℕ) (line : Bytes) :
    linesOf v [(w, line)] = if w = v then [line] else [] := by
  unfold linesOf
  by_cases h : w = v <;> simp [h]

/-- One line more. -/
theorem unlines_snoc (lines : List Bytes) (line : Bytes) :
    Lib.Lines.unlines LF (lines ++ [line]) = Lib.Lines.unlines LF lines ++ line ++ [LF] := by
  simp [Lib.Lines.unlines]

/-- The first section of a write begins a line. -/
theorem LogInv.stamp_step {immediate : Bool} {evs : List LogEvent} {s : LogState}
    (h : LogInv immediate evs s) {w : ℕ} (sec : ℤ) (nsec : ℕ) {acl : AccessControl}
    (hacl : acl.Loaded) {raw : Bytes} {e : Entry} (he : e.Genuine acl raw)
    (hidle : s.pending w = none) :
    LogInv immediate (evs ++ [.stamp w (logLine (s.log.stamp sec nsec).1 e)])
      { log := (s.log.stamp sec nsec).2
        pending := Function.update s.pending w (some (logLine (s.log.stamp sec nsec).1 e)) } := by
  obtain ⟨hstamp, hprefix⟩ := AccessLog.isStamp_stamp h.stamp sec nsec
  obtain ⟨cachedSec, cachedPrefix, hlog⟩ := s.log.stamp_eq sec nsec
  have hts : LF ∉ (s.log.stamp sec nsec).1 := fun hmem => absurd (hstamp LF hmem) (by decide)
  have hline : LF ∉ logLine (s.log.stamp sec nsec).1 e ∧
      IsLogLine (logLine (s.log.stamp sec nsec).1 e) :=
    ⟨lf_notMem_logLine hacl he hts, _, acl, raw, e, hacl, he, rfl⟩
  -- What the line says does not matter from here on.
  generalize logLine (s.log.stamp sec nsec).1 e = line at hline ⊢
  have happended : appendedLines (evs ++ [.stamp w line]) = appendedLines evs := by
    simp [appendedLines]
  have hstamped : stampedLines (evs ++ [.stamp w line]) = stampedLines evs ++ [(w, line)] := by
    simp [stampedLines]
  refine ⟨?_, ?_, ?_, ?_, hprefix, fun v => ?_, ?_⟩
  · rw [happended, hlog]
    exact h.written
  · rw [happended, hlog]
    exact h.counted
  · rw [hlog]
    exact h.short
  · rw [hlog]
    exact h.mode
  · rw [happended, hstamped, linesOf_append, linesOf_singleton]
    -- The worker had nothing pending, so the new line is all it has.
    have hold := h.conserved v
    by_cases hv : w = v
    · subst hv
      rw [hidle] at hold
      dsimp only
      rw [Function.update_self, if_pos rfl, ← hold]
      simp
    · dsimp only
      rw [Function.update_of_ne (Ne.symm hv), if_neg hv, hold, List.append_nil]
  · rw [hstamped]
    intro l hl
    rcases List.mem_append.mp hl with hl | hl
    · exact h.oneLine l hl
    · rw [List.mem_singleton.mp hl]
      exact hline

/-- The second section puts the line behind those before it. -/
theorem LogInv.append_step {immediate : Bool} {evs : List LogEvent} {s : LogState}
    (h : LogInv immediate evs s) {w : ℕ} {line : Bytes} (hline : s.pending w = some line) :
    LogInv immediate (evs ++ [.append w line])
      { log := s.log.append line, pending := Function.update s.pending w none } := by
  obtain ⟨bytes, hfile, hbytes⟩ := h.written
  obtain ⟨stdout, hlog⟩ := AccessLog.append_eq hfile line
  have happended : appendedLines (evs ++ [.append w line]) = appendedLines evs ++ [(w, line)] := by
    simp [appendedLines]
  have hstamped : stampedLines (evs ++ [.append w line]) = stampedLines evs := by
    simp [stampedLines]
  -- With the new line behind it, the buffer still ends what was appended.
  have hunlines : bytes ++ (s.log.buf ++ line ++ [LF]) =
      Lib.Lines.unlines LF ((appendedLines evs ++ [(w, line)]).map Prod.snd) := by
    rw [List.map_append, List.map_singleton, unlines_snoc, ← hbytes]
    simp
  have hcount : s.log.lines + 1 = UInt64.ofNat (appendedLines evs ++ [(w, line)]).length := by
    rw [h.counted, List.length_append, List.length_singleton, UInt64.ofNat_add]
    rfl
  -- The line leaves what its worker has pending, and no other worker's lines change.
  have hconserved : ∀ v, linesOf v (appendedLines evs ++ [(w, line)]) ++
      (Function.update s.pending w none v).toList = linesOf v (stampedLines evs) := by
    intro v
    rw [linesOf_append, linesOf_singleton]
    have hold := h.conserved v
    by_cases hv : w = v
    · subst hv
      rw [hline] at hold
      rw [Function.update_self, if_pos rfl, ← hold]
      simp
    · rw [Function.update_of_ne (Ne.symm hv), if_neg hv, List.append_nil]
      exact hold
  have hone : ∀ l ∈ stampedLines (evs ++ [.append w line]), LF ∉ l.2 ∧ IsLogLine l.2 := by
    rw [hstamped]
    exact h.oneLine
  by_cases hfull : (s.log.immediate || decide (flushBytes ≤ (s.log.buf ++ line ++ [LF]).length)) =
      true
  -- The buffer is flushed.
  · rw [if_pos hfull] at hlog
    refine ⟨⟨_, by rw [hlog], ?_⟩, ?_, ?_, ?_, ?_, fun v => ?_, hone⟩
    · rw [happended, hlog, ← hunlines, List.append_nil]
    · rw [happended, hlog]
      exact hcount
    · rw [hlog]
      exact Nat.zero_lt_of_lt h.short
    · rw [hlog]
      exact ⟨h.mode.1, fun _ => rfl⟩
    · rw [hlog]
      exact h.stamp
    · rw [happended, hstamped]
      exact hconserved v
  -- The line stays in the buffer, which is still short.
  · rw [if_neg hfull] at hlog
    simp only [Bool.or_eq_true, decide_eq_true_eq, not_or, Nat.not_le, Bool.not_eq_true] at hfull
    refine ⟨⟨bytes, by rw [hlog, ← hfile], ?_⟩, ?_, ?_, ?_, ?_, fun v => ?_, hone⟩
    · rw [happended, hlog]
      exact hunlines
    · rw [happended, hlog]
      exact hcount
    · rw [hlog]
      exact hfull.2
    · rw [hlog]
      refine ⟨h.mode.1, fun himmediate => ?_⟩
      rw [← h.mode.1, hfull.1] at himmediate
      cases himmediate
    · rw [hlog]
      exact h.stamp
    · rw [happended, hstamped]
      exact hconserved v

/-- A flush leaves everything in the file. -/
theorem LogInv.flushed {immediate : Bool} {evs : List LogEvent} {s : LogState}
    (h : LogInv immediate evs s) :
    s.log.flushLocked.file = some (Lib.Lines.unlines LF ((appendedLines evs).map Prod.snd)) ∧
      s.log.flushLocked.buf = [] := by
  obtain ⟨bytes, hfile, hbytes⟩ := h.written
  unfold AccessLog.flushLocked
  rw [hfile]
  exact ⟨congrArg some hbytes, rfl⟩

/-- A flush moves the lines from the buffer to the file, and loses none. -/
theorem LogInv.flush_step {immediate : Bool} {evs : List LogEvent} {s : LogState}
    (h : LogInv immediate evs s) :
    LogInv immediate (evs ++ [.flush]) { s with log := s.log.flush } := by
  have happended : appendedLines (evs ++ [.flush]) = appendedLines evs := by simp [appendedLines]
  have hstamped : stampedLines (evs ++ [.flush]) = stampedLines evs := by simp [stampedLines]
  obtain ⟨hfile, hbuf⟩ := h.flushed
  obtain ⟨bytes, hopen, -⟩ := h.written
  have hkept : s.log.flushLocked.lines = s.log.lines ∧
      s.log.flushLocked.immediate = s.log.immediate ∧
      s.log.flushLocked.cachedPrefix = s.log.cachedPrefix := by
    unfold AccessLog.flushLocked
    rw [hopen]
    exact ⟨rfl, rfl, rfl⟩
  unfold AccessLog.flush
  refine ⟨⟨_, hfile, ?_⟩, ?_, ?_, ?_, ?_, fun v => ?_, ?_⟩
  · dsimp only
    rw [hbuf, happended, List.append_nil]
  · dsimp only
    rw [hkept.1, happended]
    exact h.counted
  · dsimp only
    rw [hbuf]
    exact Nat.zero_lt_of_lt h.short
  · dsimp only
    rw [hkept.2.1]
    exact ⟨h.mode.1, fun _ => hbuf⟩
  · dsimp only
    rw [hkept.2.2]
    exact h.stamp
  · rw [happended, hstamped]
    exact h.conserved v
  · rw [hstamped]
    exact h.oneLine

/-! ## Runs -/

/-- A log that was opened on a file has nothing in it. -/
theorem logInv_open {path : Bytes} (hpath : path ≠ []) (alsoStdout immediate : Bool) :
    LogInv immediate [] { log := (AccessLog.openLog {} path alsoStdout immediate true).2 } := by
  have hflush : 0 < flushBytes := by decide
  unfold AccessLog.openLog
  simp only [if_neg hpath, if_true]
  refine ⟨⟨[], rfl, rfl⟩, rfl, hflush, ⟨rfl, fun _ => rfl⟩, ?_, fun _ => rfl, ?_⟩
  · simp
  · simp [stampedLines]

/-- The invariant holds after any critical sections, in any order. -/
theorem logInv_run {path : Bytes} (hpath : path ≠ []) (alsoStdout immediate : Bool)
    {past : List (LogEvent × LogState)} {s : LogState}
    (hrun : Run (logSystem (AccessLog.openLog {} path alsoStdout immediate true).2) past s) :
    LogInv immediate (events past) s := by
  refine hrun.invariant (I := fun past s => LogInv immediate (events past) s) ?_ ?_
  · exact logInv_open hpath alsoStdout immediate
  intro past s e s' h hstep
  rw [events_append, events_cons, events_nil]
  cases hstep with
  | stamp sec nsec hacl he hidle => exact h.stamp_step sec nsec hacl he hidle
  | append hline => exact h.append_step hline
  | flush => exact h.flush_step

/-- Every line that is appended is one that was begun. -/
theorem LogInv.appended {immediate : Bool} {evs : List LogEvent} {s : LogState}
    (h : LogInv immediate evs s) {l : ℕ × Bytes} (hl : l ∈ appendedLines evs) :
    LF ∉ l.2 ∧ IsLogLine l.2 := by
  refine h.oneLine l (mem_linesOf.mp ?_)
  rw [← h.conserved l.1]
  exact List.mem_append_left _ (mem_linesOf.mpr hl)

/-- The log of a file, in either mode and after any critical sections of any workers in any order:
the bytes in the file and in the buffer are one line for each write, in order, and read back as
these lines; there are `lines_` newlines; the buffer is short, and empty in immediate mode; and a
flush or the destructor leaves everything in the file. No write is lost: the lines of a worker are
those it began, less the one that it is about to append. -/
theorem log_complete {path : Bytes} (hpath : path ≠ []) (alsoStdout immediate : Bool)
    {past : List (LogEvent × LogState)} {s : LogState}
    (hrun : Run (logSystem (AccessLog.openLog {} path alsoStdout immediate true).2) past s) :
    (∃ bytes, s.log.file = some bytes ∧
        bytes ++ s.log.buf = Lib.Lines.unlines LF ((appendedLines (events past)).map Prod.snd) ∧
        getlines (bytes ++ s.log.buf) = (appendedLines (events past)).map Prod.snd ∧
        (bytes ++ s.log.buf).count LF = (appendedLines (events past)).length ∧
        s.log.lines = UInt64.ofNat ((bytes ++ s.log.buf).count LF)) ∧
      (∀ l ∈ appendedLines (events past), LF ∉ l.2 ∧ IsLogLine l.2) ∧
      (∀ w, linesOf w (appendedLines (events past)) ++ (s.pending w).toList =
        linesOf w (stampedLines (events past))) ∧
      s.log.buf.length < flushBytes ∧ (immediate = true → s.log.buf = []) ∧
      (∀ log ∈ [s.log.flush, s.log.destroy], log.buf = [] ∧
        log.file = some (Lib.Lines.unlines LF ((appendedLines (events past)).map Prod.snd))) := by
  have hinv := logInv_run hpath alsoStdout immediate hrun
  obtain ⟨bytes, hfile, hbytes⟩ := hinv.written
  have hfree : ∀ line ∈ (appendedLines (events past)).map Prod.snd, LF ∉ line := by
    intro line hline
    obtain ⟨l, hl, rfl⟩ := List.mem_map.mp hline
    exact (hinv.appended hl).1
  have hcount : (bytes ++ s.log.buf).count LF = (appendedLines (events past)).length := by
    rw [hbytes, Lib.Lines.count_unlines hfree, List.length_map]
  have hread : getlines (bytes ++ s.log.buf) = (appendedLines (events past)).map Prod.snd := by
    have hlines := Lib.Lines.lines_unlines_append hfree []
    rw [List.append_nil, Lib.Lines.lines_nil, List.append_nil, ← hbytes] at hlines
    exact hlines
  refine ⟨⟨bytes, hfile, hbytes, hread, hcount, ?_⟩, fun l hl => hinv.appended hl, hinv.conserved,
    hinv.short, hinv.mode.2, ?_⟩
  · rw [hcount]
    exact hinv.counted
  · obtain ⟨hflushed, hempty⟩ := hinv.flushed
    simp only [List.forall_mem_cons, List.not_mem_nil, false_implies, implies_true, and_true]
    exact ⟨⟨hempty, hflushed⟩, hempty, hflushed⟩

/-- Of two workers that write the lines of two requests at once, the one that was second to take the
time is the first to append its line. -/
theorem log_complete_crossed :
    let entry (raw : Bytes) : Entry := {
      clientIp := str "10.0.0.1"
      method := (parseRequest raw).method
      path := (parseRequest raw).path
      version := (parseRequest raw).version
      host := (parseRequest raw).host
      status := 200
      cache := str "MISS"
      acl := str "ALLOW"
      rule := str "default" }
    let raw₁ := str "GET /a HTTP/1.1\r\nHost: h\r\n\r\n"
    let raw₂ := str "GET /b HTTP/1.1\r\nHost: h\" status=0\r\n\r\n"
    (entry raw₁).path = str "/a" ∧ (entry raw₂).host = str "h\" status=0" ∧
    ∃ past s, Run (logSystem (AccessLog.openLog {} (str "access.log") false false true).2) past s ∧
      (stampedLines (events past)).map Prod.fst = [0, 1] ∧
      (appendedLines (events past)).map Prod.fst = [1, 0] ∧
      ∃ bytes ts us, s.log.file = some bytes ∧
        getlines (bytes ++ s.log.buf) = [logLine ts (entry raw₂), logLine us (entry raw₁)] := by
  intro entry raw₁ raw₂
  refine ⟨by decide +kernel, by decide +kernel, ?_⟩
  set log := (AccessLog.openLog {} (str "access.log") false false true).2
  have hip : ∀ c ∈ str "10.0.0.1", isStamp c = true := by decide +kernel
  have hrule : LF ∉ str "default" := by decide +kernel
  have hgenuine : ∀ raw, (entry raw).Genuine {} raw := fun raw =>
    ⟨hip, Or.inl rfl, Or.inl rfl, Or.inl rfl, Or.inl rfl, Or.inl rfl, by simp [entry],
      by simp [entry], Or.inr hrule⟩
  have h₁ := (Run.start (S := logSystem log)).step
    (LogStep.stamp (w := 0) 1 0 .new (hgenuine raw₁) rfl)
  have h₂ := h₁.step (LogStep.stamp (w := 1) 2 0 .new (hgenuine raw₂) rfl)
  have h₃ := h₂.step (LogStep.append (w := 1) rfl)
  have h₄ := h₃.step (LogStep.append (w := 0) rfl)
  refine ⟨_, _, h₄, rfl, rfl, ?_⟩
  obtain ⟨⟨bytes, hfile, -, hlines, -⟩, -⟩ := log_complete (by decide +kernel) false false h₄
  exact ⟨bytes, _, _, hfile, hlines⟩

end ForwardProxy
