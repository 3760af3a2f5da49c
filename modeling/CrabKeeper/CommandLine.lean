import CrabKeeper.Foundation.Numerals
import CrabKeeper.BankTypes

/-!
# The command line

One executable is the coordinating process, a worker and a branch, by its first
argument. A spawned process is told its parent's address by an argument and its
numbers by environment variables, as decimal texts. A variable that is missing
or cannot be read counts as its default.
-/

set_option autoImplicit false

namespace CrabKeeper.CommandLine
open Foundation.Numerals
open CrabKeeper.BankTypes

def childArg : String := "--child"

def bankingChildArg : String := "--banking-child"

/-- `env::var`, with no value also for one that is not Unicode. -/
abbrev Environment := String → Option String

def parseU8 (text : List Char) : Option UInt8 :=
  (parse false 0 255 text).map fun v => UInt8.ofNat v.toNat

def parseUsize (text : List Char) : Option UInt64 :=
  (parse false 0 (2^64-1) text).map fun v => UInt64.ofNat v.toNat

def parseI64 (text : List Char) : Option Int64 :=
  (parse true (-2^63) (2^63-1) text).map Int64.ofInt

/-- `env::var(name).unwrap_or_else(default).parse().unwrap_or(fallback)`. -/
def readVar {α : Type} (env : Environment) (name default : String)
    (parse : List Char → Option α) (fallback : α) : α :=
  (parse ((env name).getD default).toList).getD fallback

inductive Command where
  | parent (childrenCount : UInt64)
  | child (childId : UInt64) (parentAddr : String)
  | bankingChild (parentAddr : String) (childId : AccountId) (initialBalance : Balance)
  | usage
  deriving DecidableEq, Repr

def childrenCount (env : Environment) : UInt64 := readVar env "CHILDREN_COUNT" "3" parseUsize 3

def main (args : List String) (env : Environment) : Command :=
  match args with
  | _::arg::rest =>
    if arg = bankingChildArg then
      match rest with
      | parentAddr::_ => .bankingChild parentAddr (readVar env "CHILD_ID" "0" parseU8 0)
          (readVar env "CHILD_BALANCE" "0" parseI64 0)
      | [] => .usage
    else if arg = childArg then
      match rest with
      | parentAddr::_ => .child (readVar env "CHILD_ID" "0" parseUsize 0) parentAddr
      | [] => .usage
    else .parent (childrenCount env)
  | _ => .parent (childrenCount env)

structure Spawned where
  args : List String
  env : Environment

def text (v : ℤ) : String := String.ofList (decimal v)

def spawnWorker (exePath addrStr : String) (env : Environment) : Spawned where
  args := [exePath, childArg, addrStr]
  env := env

def spawnChildProcess (exe parentAddr : String) (childId : UInt64) (env : Environment) :
    Spawned where
  args := [exe, "--child", parentAddr]
  env := Function.update env "CHILD_ID" (some (text childId.toNat))

def spawnBankingChild (exe parentAddr : String) (childId balance : UInt64) (env : Environment) :
    Spawned where
  args := [exe, "--banking-child", parentAddr]
  env := Function.update (Function.update env "CHILD_ID" (some (text childId.toNat)))
    "CHILD_BALANCE" (some (text balance.toNat))

theorem text_toList (v : ℤ) : (text v).toList = decimal v := String.toList_ofList

theorem parseU8_eq_some {t : List Char} {c : UInt8} :
    parseU8 t = some c ↔ Numeral false t c.toNat := by
  simp only [parseU8, Option.map_eq_some_iff,
    parse_eq_some (show (0 : ℤ) ≤ 0 by omega) (show (0 : ℤ) ≤ 255 by omega)]
  constructor
  · rintro ⟨v, ⟨hv, h0, h1⟩, rfl⟩
    rwa [UInt8.toNat_ofNat_of_lt' (show _ < 2^8 by omega), Int.toNat_of_nonneg h0]
  · intro h
    have := UInt8.toNat_lt c
    exact ⟨c.toNat, ⟨h, by omega, by omega⟩, UInt8.ofNat_toNat⟩

theorem parseUsize_eq_some {t : List Char} {c : UInt64} :
    parseUsize t = some c ↔ Numeral false t c.toNat := by
  simp only [parseUsize, Option.map_eq_some_iff,
    parse_eq_some (show (0 : ℤ) ≤ 0 by omega) (show (0 : ℤ) ≤ 2^64-1 by omega)]
  constructor
  · rintro ⟨v, ⟨hv, h0, h1⟩, rfl⟩
    rwa [UInt64.toNat_ofNat_of_lt' (show _ < 2^64 by omega), Int.toNat_of_nonneg h0]
  · intro h
    have := UInt64.toNat_lt c
    exact ⟨c.toNat, ⟨h, by omega, by omega⟩, UInt64.ofNat_toNat⟩

theorem parseI64_eq_some {t : List Char} {c : Int64} :
    parseI64 t = some c ↔ Numeral true t c.toInt := by
  simp only [parseI64, Option.map_eq_some_iff,
    parse_eq_some (show (-2^63 : ℤ) ≤ 0 by omega) (show (0 : ℤ) ≤ 2^63-1 by omega)]
  constructor
  · rintro ⟨v, ⟨hv, h0, h1⟩, rfl⟩
    rwa [Int64.toInt_ofInt_of_le h0 (by omega)]
  · intro h
    have h0 := Int64.le_toInt c
    have h1 := Int64.toInt_lt c
    exact ⟨c.toInt, ⟨h, by omega, by omega⟩, Int64.ofInt_toInt c⟩

/-- A variable counts for what its text says, and for its default where that says nothing. -/
def Read {α : Type} (reads : List Char → α → Prop) (fallback : α) (value : Option String)
    (v : α) : Prop :=
  (∃ t, value = some t ∧ reads t.toList v) ∨
    v = fallback ∧ ∀ t w, value = some t → ¬ reads t.toList w

theorem readVar_eq {α : Type} {reads : List Char → α → Prop} {parse : List Char → Option α}
    (hparse : ∀ t v, parse t = some v ↔ reads t v) {default : String} {fallback : α}
    (hdefault : parse default.toList = some fallback) (env : Environment) (name : String) (v : α) :
    readVar env name default parse fallback = v ↔ Read reads fallback (env name) v := by
  unfold readVar Read
  cases env name with
  | none => simp [hdefault, eq_comm]
  | some t =>
    have hreads : ∀ w, reads t.toList w ↔ parse t.toList = some w := fun w => (hparse _ w).symm
    have hnone : (∀ t' w, some t = some t' → ¬ reads t'.toList w) ↔ parse t.toList = none := by
      constructor
      · intro h
        rw [Option.eq_none_iff_forall_ne_some]
        exact fun w hw => h t w rfl ((hreads w).mpr hw)
      · rintro h _ w ⟨⟩ hr
        rw [hreads, h] at hr
        cases hr
    rw [hnone]
    simp only [Option.getD_some, Option.some.injEq, exists_eq_left', hreads]
    cases parse t.toList with
    | none => simp [eq_comm]
    | some w => simp

/-- What `main` does is decided by its first argument, the one behind it, and the
variables of that mode, each by its own numerals. -/
theorem main_reads (args : List String) (env : Environment) :
    (∀ c, main args env = .parent c ↔
      args[1]? ≠ some childArg ∧ args[1]? ≠ some bankingChildArg ∧
        Read (fun t c => Numeral false t c.toNat) 3 (env "CHILDREN_COUNT") c) ∧
    (∀ id addr, main args env = .child id addr ↔
      args[1]? = some childArg ∧ args[2]? = some addr ∧
        Read (fun t id => Numeral false t id.toNat) 0 (env "CHILD_ID") id) ∧
    (∀ addr id balance, main args env = .bankingChild addr id balance ↔
      args[1]? = some bankingChildArg ∧ args[2]? = some addr ∧
        Read (fun t id => Numeral false t id.toNat) 0 (env "CHILD_ID") id ∧
        Read (fun t b => Numeral true t b.toInt) 0 (env "CHILD_BALANCE") balance) ∧
    (main args env = .usage ↔
      (args[1]? = some childArg ∨ args[1]? = some bankingChildArg) ∧ args[2]? = none) := by
  have hargs : childArg ≠ bankingChildArg := by decide
  have hcount : ∀ c, childrenCount env = c ↔
      Read (fun t c => Numeral false t c.toNat) 3 (env "CHILDREN_COUNT") c :=
    readVar_eq (fun _ _ => parseUsize_eq_some) (by decide) env _
  have hid : ∀ c, readVar env "CHILD_ID" "0" parseUsize 0 = c ↔
      Read (fun t c => Numeral false t c.toNat) 0 (env "CHILD_ID") c :=
    readVar_eq (fun _ _ => parseUsize_eq_some) (by decide) env _
  have haccount : ∀ c, readVar env "CHILD_ID" "0" parseU8 0 = c ↔
      Read (fun t c => Numeral false t c.toNat) 0 (env "CHILD_ID") c :=
    readVar_eq (fun _ _ => parseU8_eq_some) (by decide) env _
  have hbalance : ∀ c, readVar env "CHILD_BALANCE" "0" parseI64 0 = c ↔
      Read (fun t c => Numeral true t c.toInt) 0 (env "CHILD_BALANCE") c :=
    readVar_eq (fun _ _ => parseI64_eq_some) (by decide) env _
  simp only [← hcount, ← hid, ← haccount, ← hbalance]
  rcases args with _ | ⟨exe, _ | ⟨arg, rest⟩⟩
  · simp [main]
  · simp [main]
  · by_cases hb : arg = bankingChildArg
    · subst hb
      cases rest <;> simp [main, hargs.symm]
    · by_cases hc : arg = childArg
      · subst hc
        cases rest <;> simp [main, hargs, and_comm]
      · simp [main, hb, hc]

theorem readVar_some {α : Type} {env : Environment} {name t : String} (h : env name = some t)
    (default : String) (parse : List Char → Option α) (fallback : α) :
    readVar env name default parse fallback = (parse t.toList).getD fallback := by
  rw [readVar, h, Option.getD_some]

theorem parseU8_text (k : ℕ) :
    ((parseU8 (text k).toList).getD 0).toNat = if k < 256 then k else 0 := by
  rw [text_toList, parseU8, parse_decimal (by omega) (by omega) (Or.inr (by omega)), within]
  split_ifs with hb hk hk
  · exact UInt8.toNat_ofNat_of_lt' (show _ < 2^8 by omega)
  · omega
  · omega
  · rfl

theorem parseI64_text (k : ℕ) :
    ((parseI64 (text k).toList).getD 0).toInt = if k < 2^63 then (k : ℤ) else 0 := by
  rw [text_toList, parseI64, parse_decimal (by omega) (by omega) (Or.inl rfl), within]
  split_ifs with hb hk hk
  · exact Int64.toInt_ofInt_of_le (by omega) (by omega)
  · omega
  · omega
  · rfl

theorem parseUsize_text (k : UInt64) : (parseUsize (text k.toNat).toList).getD 0 = k := by
  have hk : parseUsize (text k.toNat).toList = some k := by
    rw [parseUsize_eq_some, text_toList]
    exact numeral_decimal (Or.inr (by omega))
  rw [hk, Option.getD_some]

theorem main_banking (exe parentAddr : String) (env : Environment) :
    main [exe, bankingChildArg, parentAddr] env =
      .bankingChild parentAddr (readVar env "CHILD_ID" "0" parseU8 0)
        (readVar env "CHILD_BALANCE" "0" parseI64 0) := by
  simp [main]

theorem main_child (exe parentAddr : String) (env : Environment) :
    main [exe, childArg, parentAddr] env =
      .child (readVar env "CHILD_ID" "0" parseUsize 0) parentAddr := by
  simp [main, show childArg ≠ bankingChildArg by decide]

end CrabKeeper.CommandLine
