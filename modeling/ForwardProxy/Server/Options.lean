import ForwardProxy.Bytes
import ForwardProxy.Lib.CommandLine

/-!
# The command line of the proxy

The options of `server_phase5.cpp`, as `main` reads them. A command line is accepted exactly when it
is a port and options one after the other; of the values that are given for the access-control file,
the last is the one that counts; and what is not accepted is refused for a reason that is printed
(`commandLine_meaning`).
-/

namespace ForwardProxy

open Lib.CommandLine

/-- `Options`: what the command line sets. -/
structure Options where
  port : ℤ := 8080
  cacheCapacity : UInt64 := 2000
  cacheShards : UInt64 := 16
  /-- `0` is the number of hardware threads. -/
  workers : ℤ := 0
  aclPath : Bytes := []
  logPath : Bytes := []
  logStdout : Bool := false
  logImmediate : Bool := false
  quietStats : Bool := false
  upstreamTimeoutSec : ℤ := 5
  deriving DecidableEq

/-- `usage`. -/
def usage (prog : Bytes) : Bytes :=
  str "Usage: " ++ prog ++ str (" <port> [options]\n" ++
    "  --workers <n>       thread pool size (default: hardware_concurrency)\n" ++
    "  --cache <n>         total cache entries (default: 2000)\n" ++
    "  --shards <n>        cache shards, rounded to a power of 2 (default: 16)\n" ++
    "  --acl <file>        access-control config (default: none => allow all)\n" ++
    "  --log <file>        access log path (default: stdout)\n" ++
    "  --log-stdout        also write the access log to stdout\n" ++
    "  --no-stats          suppress the periodic stats line\n" ++
    "  --upstream-timeout <sec>  (default: 5)\n")

/-- `(size_t)atoll(s)`. -/
def sizeOfText (s : Bytes) : UInt64 := UInt64.ofInt (strtol s).value

/-- What a word sets, as the first word of an option. -/
def readOption (a : Bytes) : Reading Bytes Options :=
  if a = str "--workers" then .valued fun o v => { o with workers := atoi v }
  else if a = str "--cache" then .valued fun o v => { o with cacheCapacity := sizeOfText v }
  else if a = str "--shards" then .valued fun o v => { o with cacheShards := sizeOfText v }
  else if a = str "--acl" then .valued fun o v => { o with aclPath := v }
  else if a = str "--log" then .valued fun o v => { o with logPath := v }
  else if a = str "--log-stdout" then .switch fun o => { o with logStdout := true }
  else if a = str "--log-immediate" then .switch fun o => { o with logImmediate := true }
  else if a = str "--no-stats" then .switch fun o => { o with quietStats := true }
  else if a = str "--upstream-timeout" then
    .valued fun o v => { o with upstreamTimeoutSec := atoi v }
  else .unknown

/-- What is printed for words that are no option. -/
def refusalText (prog : Bytes) : Refusal Bytes → Bytes
  | .missing what => what ++ str " requires a value\n"
  | .unknown _ => usage prog

/-- The part of `main` that reads the command line, of which `args` are the words after the
program's name: the options, or what is printed on standard error before the process exits. -/
def commandLine (prog : Bytes) (args : List Bytes) : Except Bytes Options :=
  match args with
  | [] => .error (usage prog)
  | portText :: rest =>
    let port := atoi portText
    if port ≤ 0 ∨ 65535 < port then .error (str "invalid port: " ++ portText ++ str "\n")
    else
      match parse readOption { port := port } rest with
      | .ok o => .ok o
      | .error refusal => .error (refusalText prog refusal)

/-! ## What the options set -/

/-- An option as it stands on the command line. -/
abbrev OptionItem := Item readOption

/-- The file that an option gives for the access control. -/
def aclValue (item : OptionItem) : Option Bytes :=
  match item.words with
  | [a, v] => if a = str "--acl" then some v else none
  | _ => none

/-- Setting an option leaves the port, and the access-control file. -/
def SetsOther : Reading Bytes Options → Prop
  | .switch f => ∀ o, (f o).port = o.port ∧ (f o).aclPath = o.aclPath
  | .valued f => ∀ o v, (f o v).port = o.port ∧ (f o v).aclPath = o.aclPath
  | .unknown => True

/-- The option for the configuration of the access control. -/
theorem readOption_acl :
    readOption (str "--acl") = .valued fun o v => { o with aclPath := v } := rfl

/-- The other options leave that file alone. -/
theorem setsOther_readOption {a : Bytes} (h : a ≠ str "--acl") : SetsOther (readOption a) := by
  unfold readOption
  rw [if_neg h]
  repeat' split
  all_goals first | exact fun _ => ⟨rfl, rfl⟩ | exact fun _ _ => ⟨rfl, rfl⟩ | exact True.intro

/-- The access-control file is the value of `--acl`, no other option sets it, and none sets the
port. -/
theorem set_spec (item : OptionItem) (o : Options) :
    (item.set o).port = o.port ∧ (item.set o).aclPath = (aclValue item).getD o.aclPath := by
  obtain ⟨ws, set, htakes⟩ := item
  cases htakes with
  | @switch a f h =>
    have hne : a ≠ str "--acl" := by
      rintro rfl
      rw [readOption_acl] at h
      cases h
    have hother := setsOther_readOption hne
    rw [h] at hother
    exact hother o
  | @valued a f h v =>
    change (f o v).port = o.port ∧
      (f o v).aclPath = (if a = str "--acl" then some v else none).getD o.aclPath
    by_cases hacl : a = str "--acl"
    · subst hacl
      rw [readOption_acl, Reading.valued.injEq] at h
      subst h
      exact ⟨rfl, rfl⟩
    · have hother := setsOther_readOption hacl
      rw [h] at hother
      rw [if_neg hacl]
      exact hother o v

/-- The last value that is given for the access-control file is the one that counts. -/
theorem aclPath_setAll (items : List OptionItem) (o : Options) :
    (setAll o items).aclPath = (items.filterMap aclValue).getLast?.getD o.aclPath := by
  induction items generalizing o with
  | nil => rfl
  | cons item items ih =>
    rw [setAll_cons, ih, (set_spec item o).2]
    cases hvalue : aclValue item with
    | none => rw [List.filterMap_cons_none hvalue, Option.getD_none]
    | some v =>
      rw [List.filterMap_cons_some hvalue, List.getLast?_cons, Option.getD_some]
      rfl

/-- No option sets the port. -/
theorem port_setAll (items : List OptionItem) (o : Options) :
    (setAll o items).port = o.port := by
  induction items generalizing o with
  | nil => rfl
  | cons item items ih => rw [setAll_cons, ih, (set_spec item o).1]

/-! ## What is accepted, and what is refused -/

/-- A port that `main` accepts. -/
def IsPort (portText : Bytes) : Prop := 1 ≤ atoi portText ∧ atoi portText ≤ 65535

/-- The command lines that are refused, and what is printed. -/
inductive Refused (prog : Bytes) : List Bytes → Bytes → Prop
  | noPort : Refused prog [] (usage prog)
  | badPort {portText : Bytes} (h : ¬ IsPort portText) (rest : List Bytes) :
    Refused prog (portText :: rest) (str "invalid port: " ++ portText ++ str "\n")
  | noValue {portText : Bytes} (h : IsPort portText) (items : List OptionItem) {a : Bytes}
    {f : Options → Bytes → Options} (ha : readOption a = .valued f) :
    Refused prog (portText :: (words items ++ [a])) (a ++ str " requires a value\n")
  | notAnOption {portText : Bytes} (h : IsPort portText) (items : List OptionItem) {a : Bytes}
    (ha : readOption a = .unknown) (rest : List Bytes) :
    Refused prog (portText :: (words items ++ a :: rest)) (usage prog)

/-- Past a port the words are options. -/
theorem commandLine_cons {prog portText : Bytes} (h : IsPort portText) (rest : List Bytes) :
    commandLine prog (portText :: rest) =
      match parse readOption { port := atoi portText } rest with
      | .ok o => .ok o
      | .error refusal => .error (refusalText prog refusal) := by
  have hport : ¬ (atoi portText ≤ 0 ∨ 65535 < atoi portText) := by
    obtain ⟨hlow, hhigh⟩ := h
    omega
  rw [commandLine]
  exact if_neg hport

/-- A command line that is to be refused is refused, with its text. -/
theorem commandLine_refused {prog : Bytes} {args : List Bytes} {text : Bytes}
    (h : Refused prog args text) : commandLine prog args = .error text := by
  cases h with
  | noPort => rfl
  | @badPort portText h rest =>
    have hport : atoi portText ≤ 0 ∨ 65535 < atoi portText := by
      by_contra hnot
      exact h ⟨by omega, by omega⟩
    rw [commandLine]
    exact if_pos hport
  | noValue h items ha =>
    rw [commandLine_cons h, parse_words_append, parse_refuses (.missing ha)]
    rfl
  | notAnOption h items ha rest =>
    rw [commandLine_cons h, parse_words_append, parse_refuses (.unknown ha rest)]
    rfl

/-- A port and options are taken, each option in its turn. -/
theorem commandLine_items {prog portText : Bytes} (h : IsPort portText)
    (items : List OptionItem) :
    commandLine prog (portText :: words items) = .ok (setAll { port := atoi portText } items) := by
  have hparse : parse readOption { port := atoi portText } (words items) =
      .ok (setAll { port := atoi portText } items) := parse_eq_ok_iff.mpr ⟨items, rfl, rfl⟩
  rw [commandLine_cons h, hparse]

/-- Every command line is a port and options, or is refused. -/
theorem commandLine_cases (prog : Bytes) (args : List Bytes) :
    (∃ portText items, args = portText :: words (items : List OptionItem) ∧ IsPort portText) ∨
      ∃ text, Refused prog args text := by
  cases args with
  | nil => exact .inr ⟨_, .noPort⟩
  | cons portText rest =>
    by_cases hport : IsPort portText
    · obtain ⟨items, tail, rfl, rfl | ⟨e, htail⟩⟩ := exists_items readOption rest
      · exact .inl ⟨portText, items, by rw [List.append_nil], hport⟩
      · cases htail with
        | missing ha => exact .inr ⟨_, .noValue hport items ha⟩
        | unknown ha rest => exact .inr ⟨_, .notAnOption hport items ha rest⟩
    · exact .inr ⟨_, .badPort hport rest⟩

/-- A command line is accepted exactly when it is a port and options one after the other, which are
determined by it; it sets what they set in their order, of which the last `--acl` counts; and it is
refused, with what is printed, in the cases of `Refused`. -/
theorem commandLine_meaning (prog : Bytes) (args : List Bytes) :
    (∀ o, commandLine prog args = .ok o ↔
      ∃ portText, IsPort portText ∧ ∃! items : List OptionItem, args = portText :: words items ∧
        o = setAll { port := atoi portText } items ∧ o.port = atoi portText ∧
        o.aclPath = (items.filterMap aclValue).getLast?.getD []) ∧
      ∀ text, commandLine prog args = .error text ↔ Refused prog args text := by
  have hok : ∀ (portText : Bytes) (items : List OptionItem), IsPort portText →
      commandLine prog (portText :: words items) =
        .ok (setAll { port := atoi portText } items) := fun _ items h => commandLine_items h items
  refine ⟨fun o => ⟨fun h => ?_, ?_⟩, fun text => ⟨fun h => ?_, commandLine_refused⟩⟩
  · obtain ⟨portText, items, rfl, hport⟩ | ⟨text, hrefused⟩ := commandLine_cases prog args
    · rw [hok portText items hport, Except.ok.injEq] at h
      subst h
      refine ⟨portText, hport, items, ⟨rfl, rfl, port_setAll items _, aclPath_setAll items _⟩, ?_⟩
      rintro items' ⟨hwords, -⟩
      exact words_injective (List.cons.inj hwords).2.symm
    · rw [commandLine_refused hrefused] at h
      cases h
  · rintro ⟨portText, hport, items, ⟨rfl, rfl, -⟩, -⟩
    exact hok portText items hport
  · obtain ⟨portText, items, rfl, hport⟩ | ⟨text', hrefused⟩ := commandLine_cases prog args
    · rw [hok portText items hport] at h
      cases h
    · rw [commandLine_refused hrefused, Except.error.injEq] at h
      exact h ▸ hrefused

end ForwardProxy
