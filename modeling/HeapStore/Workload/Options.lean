import HeapStore.Disk

/-! The arguments of the program. -/
namespace HeapStore.Workload

inductive LogLevel where
  | error | warn | info | debug | trace
  deriving DecidableEq

namespace LogLevel

def name : LogLevel → String
  | error => "error"
  | warn => "warn"
  | info => "info"
  | debug => "debug"
  | trace => "trace"

/-- In the order of the numbers 1 to 5 that stand for them. -/
def all : List LogLevel := [error, warn, info, debug, trace]

end LogLevel

structure Options where
  /-- Directory where table files are stored. -/
  data : String
  /-- Size of the page pool in pages. -/
  poolSize : Nat := 50
  pageSize : Nat := 4096
  /-- Number of writers. -/
  threads : Nat := 4
  /-- Transactions of each writer, which insert one row each. -/
  transactions : Nat := 100
  logLevel : LogLevel := .info
  deriving DecidableEq

inductive Refusal where
  | unexpected (arg : String)
  | noValue (option : String)
  | invalidValue (option value : String)
  | repeated (option : String)
  | noData
  deriving DecidableEq

def optionText (option : String) : String := "--" ++ option

def Refusal.text : Refusal → String
  | unexpected arg => "unexpected argument " ++ arg
  | noValue option => "no value for " ++ optionText option
  | invalidValue option value => "invalid value " ++ value ++ " for " ++ optionText option
  | repeated option => optionText option ++ " was given more than once"
  | noData => "missing " ++ optionText "data"

inductive Request where
  | run (o : Options)
  | help
  deriving DecidableEq

/-- A number of at most 64 bits in decimal digits, possibly after a plus sign. -/
def number? (s : String) : Option Nat :=
  let digits := match s.toList with
    | '+' :: ds => ds
    | ds => ds
  if digits ≠ [] ∧ digits.all (fun c => '0' ≤ c ∧ c ≤ '9') then
    let n := digits.foldl (fun n c => n * 10 + (c.toNat - '0'.toNat)) 0
    if n < UInt64.size then some n else none
  else none

/-- A level by its number or by its name in any case. -/
def level? (s : String) : Option LogLevel :=
  match number? s with
  | some (n + 1) => LogLevel.all[n]?
  | some 0 => none
  | none => LogLevel.all.find? fun l => l.name = s.map Char.toLower

/-- The options given so far. -/
structure Given where
  data : Option String := none
  poolSize : Option Nat := none
  pageSize : Option Nat := none
  threads : Option Nat := none
  transactions : Option Nat := none
  logLevel : Option LogLevel := none

namespace Given

/-- Sets an option that must not be set yet, to a value that has to be of its kind. -/
def fill {α : Type} (option value : String) (parse : String → Option α) (old : Option α)
    (set : α → Given) : Except Refusal Given :=
  match parse value, old with
  | none, _ => .error (.invalidValue option value)
  | some _, some _ => .error (.repeated option)
  | some a, none => .ok (set a)

/-- None if there is no option of that name. -/
def set? (g : Given) (option value : String) : Option (Except Refusal Given) :=
  match option with
  | "data" => some (fill option value (fun v => if v = "" then none else some v) g.data
      fun a => { g with data := some a })
  | "pool-size" => some (fill option value number? g.poolSize fun a => { g with poolSize := some a })
  | "page-size" => some (fill option value number? g.pageSize fun a => { g with pageSize := some a })
  | "threads" => some (fill option value number? g.threads fun a => { g with threads := some a })
  | "transactions" => some (fill option value number? g.transactions
      fun a => { g with transactions := some a })
  | "log-level" => some (fill option value level? g.logLevel fun a => { g with logLevel := some a })
  | _ => none

def options (g : Given) : Except Refusal Options :=
  match g.data with
  | none => .error .noData
  | some data =>
    let o : Options := { data }
    .ok { o with
      poolSize := g.poolSize.getD o.poolSize
      pageSize := g.pageSize.getD o.pageSize
      threads := g.threads.getD o.threads
      transactions := g.transactions.getD o.transactions
      logLevel := g.logLevel.getD o.logLevel }

end Given

/-- What an argument looks like. `--name=value` carries its value with it. -/
inductive Shape where
  | option (name : String) (value : Option String)
  | flags (names : List Char)
  | escape
  | word

def shape (arg : String) : Shape :=
  match arg.toList with
  | ['-', '-'] => .escape
  | '-' :: '-' :: rest =>
    let name := rest.takeWhile (· ≠ '=')
    .option (.ofList name) (match rest.drop name.length with
      | _ :: value => some (.ofList value)
      | [] => none)
  | ['-'] => .word
  | '-' :: names => .flags names
  | _ => .word

/-- Reads the arguments in order; the first one at fault decides, and so does a request for help.
The value of an option may stand in the argument behind it, unless that looks like an option. -/
def parseFrom (g : Given) : List String → Except Refusal Request
  | [] => g.options.map .run
  | arg :: rest =>
    match shape arg with
    | .escape =>
      match rest with
      | [] => g.options.map .run
      | a :: _ => .error (.unexpected a)
    | .word => .error (.unexpected arg)
    | .flags names => if names.head? = some 'h' then .ok .help else .error (.unexpected arg)
    | .option "help" none => .ok .help
    | .option name (some value) =>
      match g.set? name value with
      | some (.ok g) => parseFrom g rest
      | some (.error e) => .error e
      | none => .error (.unexpected arg)
    | .option name none =>
      if (g.set? name "").isNone then .error (.unexpected arg)
      else match rest with
        | [] => .error (.noValue name)
        | value :: rest =>
          match shape value with
          | .word =>
            match g.set? name value with
            | some (.ok g) => parseFrom g rest
            | some (.error e) => .error e
            | none => .error (.unexpected arg)
          | _ => .error (.noValue name)

def parse (args : List String) : Except Refusal Request := parseFrom {} args

def usage : String := "\n".intercalate [
  "Usage: heapstore [OPTIONS] --data <DATA>",
  "",
  "Options:",
  "      --data <DATA>                  Directory where table files are stored",
  "      --pool-size <POOL_SIZE>        Size of buffer pool in pages [default: 50]",
  "      --page-size <PAGE_SIZE>        Bytes per page [default: 4096]",
  "      --threads <THREADS>            Number of concurrent writers [default: 4]",
  "      --transactions <TRANSACTIONS>  Insert transactions per writer [default: 100]",
  "      --log-level <LOG_LEVEL>        [default: INFO]",
  "  -h, --help                         Print help"]

end HeapStore.Workload
