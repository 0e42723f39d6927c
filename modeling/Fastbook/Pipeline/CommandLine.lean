import Fastbook.Pipeline.ThreadConfig

/-!
# The command line

A model of `parse_port`, `parse_args` and the choice of the pipeline in `main`
(`main.cpp`), and of `str_to_exchange` (`common/types.hpp`).

What `getopt_long` answers is given: the options with their arguments, one after
the other, and the first argument that belongs to no option.  An error has the
message that is logged; asking for help is an error without one.
-/

namespace Fastbook

inductive Exchange where
  | nasdaq
  | cme
  | cboe
  | nyse
  | eurex
  deriving DecidableEq, Repr

def iequals (a b : String) : Bool :=
  a.toList.map Char.toUpper = b.toList.map Char.toUpper

def strToExchange (name : String) : Option Exchange :=
  if iequals name "nasdaq" then some .nasdaq
  else if iequals name "cme" then some .cme
  else if iequals name "cboe" then some .cboe
  else if iequals name "nyse" then some .nyse
  else if iequals name "eurex" then some .eurex
  else none

namespace CommandLine

structure Args where
  configFpath : String := ""
  exchange : Option Exchange := none
  exchangeName : Option String := none
  file : Option String := none
  mcastGroup : Option String := none
  iface : String := "0.0.0.0"
  port : UInt16 := 0
  rerequestIp : String := "127.0.0.1"
  rerequestPort : UInt16 := 0
  deriving DecidableEq, Repr

/-- What `getopt_long` returns, with `optarg`, or with `argv[optind - 1]` for an
option without its argument or an unknown one. -/
inductive Opt where
  | exchange (optarg : String)
  | config (optarg : String)
  | file (optarg : String)
  | group (optarg : String)
  | port (optarg : String)
  | iface (optarg : String)
  | rerequestIp (optarg : String)
  | rerequestPort (optarg : String)
  | help
  | missing (arg : String)
  | unknown (arg : String)
  deriving DecidableEq, Repr

/-- `parse_port`: `std::from_chars` of an unsigned 16-bit number, which has to use
up the text and not to be zero. -/
def parsePort (s : String) : Option UInt16 :=
  let digits := s.toList.takeWhile Char.isDigit
  if digits = [] ∨ s.toList.dropWhile Char.isDigit ≠ [] ∨
      2 ^ 16 ≤ ThreadConfig.decimal digits ∨ ThreadConfig.decimal digits = 0 then none
  else some (.ofNat (ThreadConfig.decimal digits))

def quoted (what arg : String) : String :=
  what ++ " '" ++ arg ++ "'"

/-- The body of the loop of `parse_args`. -/
def parseOpt (args : Args) : Opt → Except (Option String) Args
  | .exchange optarg =>
    match strToExchange optarg with
    | none => .error (some (quoted "Unknown exchange" optarg))
    | some exchange =>
      .ok { args with exchange := some exchange, exchangeName := some optarg }
  | .config optarg => .ok { args with configFpath := optarg }
  | .file optarg => .ok { args with file := some optarg }
  | .group optarg => .ok { args with mcastGroup := some optarg }
  | .port optarg =>
    match parsePort optarg with
    | none => .error (some (quoted "Invalid port" optarg))
    | some port => .ok { args with port }
  | .iface optarg => .ok { args with iface := optarg }
  | .rerequestIp optarg => .ok { args with rerequestIp := optarg }
  | .rerequestPort optarg =>
    match parsePort optarg with
    | none => .error (some (quoted "Invalid re-request port" optarg))
    | some rerequestPort => .ok { args with rerequestPort }
  | .help => .error none
  | .missing arg => .error (some (quoted "Option" arg ++ " requires an argument"))
  | .unknown arg => .error (some (quoted "Unknown option" arg))

/-- The checks after the loop. -/
def checkArgs (args : Args) : Except (Option String) Args :=
  let live := args.mcastGroup.isSome ∨ args.port ≠ 0
  if args.exchange.isNone ∨ args.configFpath = "" then
    .error (some "--exchange and --config are required")
  else if args.file.isSome ↔ live then
    .error (some "Pass either --file, or --group and --port")
  else if live ∧ (args.mcastGroup.isNone ∨ args.port = 0) then
    .error (some "--group and --port go together")
  else if live ∧ args.rerequestPort = 0 then
    .error (some "--rerequest-port is required with --group")
  else .ok args

def parseArgs (opts : List Opt) (unexpected : Option String) :
    Except (Option String) Args :=
  match opts.foldlM parseOpt {} with
  | .error e => .error e
  | .ok args =>
    match unexpected with
    | some arg => .error (some (quoted "Unexpected argument" arg))
    | none => checkArgs args

/-- The pipelines that `main` can make. -/
inductive Source where
  | file (path : String)
  | multicast (group : Option String) (iface : String) (port : UInt16)
    (rerequestIp : String) (rerequestPort : UInt16)
  deriving DecidableEq, Repr

/-- The `switch` of `main`, on the exchange of the arguments. -/
def source (args : Args) : Exchange → Except (Option String) Source
  | .nasdaq =>
    match args.file with
    | some path => .ok (.file path)
    | none =>
      .ok (.multicast args.mcastGroup args.iface args.port args.rerequestIp
        args.rerequestPort)
  | .cme | .cboe | .nyse | .eurex =>
    .error (some (quoted "Exchange" (args.exchangeName.getD "") ++ " is not supported yet"))

/-! ## What is accepted -/

/-- Either a file is given, or everything that a group needs. -/
structure Complete (args : Args) : Prop where
  exchange : args.exchange.isSome = true
  config : args.configFpath ≠ ""
  source : args.file.isSome = true ∧ args.mcastGroup = none ∧ args.port = 0 ∨
    args.file = none ∧ args.mcastGroup.isSome = true ∧ args.port ≠ 0 ∧
      args.rerequestPort ≠ 0

theorem checkArgs_eq_ok_iff {args args' : Args} :
    checkArgs args = .ok args' ↔ args = args' ∧ Complete args := by
  simp only [checkArgs]
  constructor
  · intro h
    split_ifs at h with hneeded heither htogether hport
    cases h
    push Not at hneeded
    refine ⟨rfl, ?_, hneeded.2, ?_⟩
    · exact Option.isSome_iff_ne_none.mpr (by simpa using hneeded.1)
    · by_cases hfile : args.file.isSome = true
      · have hfixed : ¬ (args.mcastGroup.isSome = true ∨ args.port ≠ 0) :=
          fun hlive => heither (iff_of_true hfile hlive)
        push Not at hfixed
        exact Or.inl ⟨hfile, by simpa using hfixed.1, hfixed.2⟩
      · have hlive : args.mcastGroup.isSome = true ∨ args.port ≠ 0 := by
          by_contra hnot
          exact heither (iff_of_false hfile hnot)
        have hboth : ¬ (args.mcastGroup.isNone = true ∨ args.port = 0) :=
          fun hone => htogether ⟨hlive, hone⟩
        push Not at hboth
        refine Or.inr ⟨by simpa using hfile, ?_, hboth.2, fun hzero => hport ⟨hlive, hzero⟩⟩
        exact Option.isSome_iff_ne_none.mpr (by simpa using hboth.1)
  · rintro ⟨rfl, hcomplete⟩
    have hexchange := hcomplete.exchange
    have hconfig := hcomplete.config
    rcases hcomplete.source with ⟨hfile, hgroup, hport⟩ | ⟨hfile, hgroup, hport, hrerequest⟩
    · have hsome : args.exchange.isNone = false := by simpa using hexchange
      simp [hsome, hconfig, hfile, hgroup, hport]
    · have hsome : args.exchange.isNone = false := by simpa using hexchange
      have hgroup' : args.mcastGroup.isNone = false := by simpa using hgroup
      simp [hsome, hconfig, hfile, hgroup, hgroup', hport, hrerequest]

theorem parseArgs_eq_ok_iff {opts : List Opt} {unexpected : Option String} {args : Args} :
    parseArgs opts unexpected = .ok args ↔
      opts.foldlM parseOpt {} = .ok args ∧ unexpected = none ∧ Complete args := by
  unfold parseArgs
  cases opts.foldlM parseOpt {} with
  | error e => simp
  | ok args' =>
      cases unexpected with
      | some arg => simp
      | none =>
          simp only [checkArgs_eq_ok_iff, Except.ok.injEq, true_and]
          constructor
          · rintro ⟨rfl, hcomplete⟩
            exact ⟨rfl, hcomplete⟩
          · rintro ⟨rfl, hcomplete⟩
            exact ⟨rfl, hcomplete⟩

end CommandLine

end Fastbook
