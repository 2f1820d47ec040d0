import EngramDB.Cli.Options
import EngramDB.Cli.Prep
import EngramDB.Cli.Tokens
import EngramDB.Foundations.Effect

/-!
# Where the keys of a token file go

`engramdb prep <tokens.npy> <out_keys.txt>` takes the output from the end of a list of names from
which it has already dropped the last one. What it creates is the first file, after it has read it.

* `cmdPrep_cases`: what a command without `--dist` changes;
* `cmdPrep_overwrites`: a command that returns has replaced its tokens by their keys, for good.
-/

namespace EngramDB

namespace Cli

/-! ### The arguments -/

/-- Read digits after a number of 32 bits. -/
def parseDigits32 (result : ℕ) : List Char → Except Text.ParseIntError ℕ
  | [] => .ok result
  | c :: cs =>
    if c.isDigit then
      let result := 10 * result + (c.toNat - '0'.toNat)
      if result < 2 ^ 32 then parseDigits32 result cs else .error .posOverflow
    else .error .invalidDigit

/-- Read a number of 32 bits, with an optional plus sign. -/
def parseWord32 (text : String) : Except String UInt32 :=
  let number : Except Text.ParseIntError ℕ :=
    match text.toList with
    | [] => .error .empty
    | c :: cs =>
      if c = '+' then if cs = [] then .error .invalidDigit else parseDigits32 0 cs
      else parseDigits32 0 (c :: cs)
  (number.map UInt32.ofNat).mapError Text.ParseIntError.message

/-- The arguments of `prep`. -/
structure PrepArgs where
  /-- The name of a distribution, if tokens are drawn from one. -/
  dist : Option String
  /-- The statistics of the distribution. -/
  stats : String
  /-- Number of requests to draw. -/
  reqs : UInt64
  /-- Tokens to draw at most. -/
  capToken : UInt32
  /-- The text of the rate of frequent tokens. -/
  hotHit : String
  /-- The seed. -/
  seed : UInt64
  /-- The other arguments. -/
  pos : List String
deriving DecidableEq, Repr

/-- What a command meets. -/
structure PrepEnv where
  /-- The conversion of a text to a floating-point number. -/
  parseFloat : String → Except String Unit
  /-- `gen_tokens`, and the statistics that it reads. -/
  genTokens : PrepArgs → Outcome String (List UInt32)
  /-- Whether the output cannot be created. -/
  opens : Option String
  /-- Whether a write fails, and how many bytes are in the output by then. -/
  writes : Option (String × ℕ)

/-- An option: the message when its value is missing, and what the value sets. -/
def PrepArgs.option (env : PrepEnv) (a : String) :
    Option (String × (String → PrepArgs → Except String PrepArgs)) :=
  if a = "--dist" then some ("dist 值", fun v args => .ok { args with dist := some v })
  else if a = "--stats" then some ("stats 路径", fun v args => .ok { args with stats := v })
  else if a = "--reqs" then
    some ("reqs", fun v args => do return { args with reqs := ← parseWord v })
  else if a = "--cap-token" then
    some ("cap", fun v args => do return { args with capToken := ← parseWord32 v })
  else if a = "--hot-hit" then
    some ("hot", fun v args => do
      env.parseFloat v
      return { args with hotHit := v })
  else if a = "--seed" then
    some ("seed", fun v args => do return { args with seed := ← parseWord v })
  else none

/-- Read the arguments. What is no option is kept in order. -/
def PrepArgs.read (env : PrepEnv) : PrepArgs → List String → Except String PrepArgs
  | args, [] => .ok args
  | args, a :: rest =>
    match PrepArgs.option env a with
    | none => PrepArgs.read env { args with pos := args.pos ++ [a] } rest
    | some (missing, set) =>
      match rest with
      | [] => .error missing
      | v :: rest => do PrepArgs.read env (← set v args) rest

/-- The arguments without options. -/
def PrepArgs.start : PrepArgs :=
  ⟨none, "probes/agent_workload_stats.json", 64, 10000, "0.35", 1, []⟩

/-- The token file, if there is one. -/
def PrepArgs.source (args : PrepArgs) : Except String (Option String) :=
  match args.dist, args.pos with
  | some _, [_] => .ok none
  | some _, _ => .error "--dist 模式下只需要 <out_keys.txt>"
  | none, [tokens, _] => .ok (some tokens)
  | none, [_] => .ok none
  | none, _ => .error "需要 <tokens.u32.npy> <out_keys.txt>"

/-- The output: the last name, when the last of several has been dropped. -/
def PrepArgs.outKeys (args : PrepArgs) : Except String String :=
  let pos := if 1 < args.pos.length then args.pos.dropLast else args.pos
  match pos.getLast? with
  | some out => .ok out
  | none => .error "缺少 <out_keys.txt>"

/-- The arguments, the token file and the output. -/
def PrepArgs.parse (env : PrepEnv) (argv : List String) :
    Except String (PrepArgs × Option String × String) :=
  if argv = [] then
    .error "usage: engramdb prep <tokens.u32.npy | --dist agent> <out_keys.txt>"
  else do
    let args ← PrepArgs.read env .start argv
    let source ← args.source
    let out ← args.outKeys
    pure (args, source, out)

/-! ### The command -/

/-- The files, by name. A file that cannot be read has an error. -/
abbrev PrepDisk := String → Except String Bytes

/-- The bytes of a text of ASCII characters. -/
def keysBytes (text : List Char) : Bytes := text.map fun c => UInt8.ofNat c.toNat

/-- The tokens. -/
def prepTokens (env : PrepEnv) (disk : PrepDisk) (args : PrepArgs) (source : Option String) :
    Outcome String (List UInt32) :=
  match args.dist, source with
  | some _, _ => do
    let tokens ← env.genTokens args
    if tokens = [] then throw (.error "空 token 序列") else pure tokens
  | none, some src => readTokensNpy src (disk src)
  | none, none => throw (.error "缺少 token 源或 --dist")

/-- `engramdb prep`. -/
def cmdPrep (env : PrepEnv) (argv : List String) : Effect (Fault String) PrepDisk Unit :=
  fun disk =>
    match PrepArgs.parse env argv with
    | .error e => (.error (.error e), disk)
    | .ok (args, source, out) =>
      match prepTokens env disk args source with
      | .error e => (.error e, disk)
      | .ok tokens =>
        match env.opens with
        | some e => (.error (.error e), disk)
        | none =>
          match prepKeys tokens with
          | .error e => (.error e, Function.update disk out (.ok []))
          | .ok text =>
            match env.writes with
            | some (e, n) =>
              (.error (.error e), Function.update disk out (.ok ((keysBytes text).take n)))
            | none => (.ok (), Function.update disk out (.ok (keysBytes text)))

/-- The files after commands, one after another. -/
def prepRun (cmds : List (PrepEnv × List String)) (disk : PrepDisk) : PrepDisk :=
  cmds.foldl (fun disk c => (cmdPrep c.1 c.2 disk).2) disk

/-- A command that does not draw its tokens. -/
def FromFile (env : PrepEnv) (argv : List String) : Prop :=
  ∀ args source out, PrepArgs.parse env argv = .ok (args, source, out) → args.dist = none

/-- A command whose token file, which is its output, is the first of two names. -/
def ReadsFrom (env : PrepEnv) (argv : List String) (path : String) : Prop :=
  ∃ args out, PrepArgs.parse env argv = .ok (args, some path, path) ∧ args.dist = none ∧
    args.pos = [path, out]

/-! ### The keys are no token file -/

variable {env : PrepEnv} {argv : List String} {disk : PrepDisk} {path : String}

theorem exists_prepKeys (tokens : List UInt32) :
    ∃ text, prepKeys (ε := String) tokens = .ok text := by
  rw [prepKeys, mapM_windowRow]
  exact ⟨_, rfl⟩

/-- The text of the keys has digits and ends of lines. -/
private theorem keysBytes_lt {tokens : List UInt32} {text : List Char}
    (h : prepKeys (ε := String) tokens = .ok text) {b : UInt8} (hb : b ∈ keysBytes text) :
    b.toNat < 128 := by
  rw [prepKeys, mapM_windowRow] at h
  obtain rfl := Except.ok.inj h
  obtain ⟨c, hc, rfl⟩ := List.mem_map.mp hb
  have hsmall : c.toNat < 128 := by
    obtain ⟨line, hline, hc⟩ := List.mem_flatMap.mp hc
    rcases List.mem_append.mp hc with hdigit | hend
    · obtain ⟨r, -, rfl⟩ := List.mem_map.mp hline
      have hdigit := Text.isDigit_of_mem_toDigits hdigit
      rw [Char.isDigit, Bool.and_eq_true, decide_eq_true_eq, decide_eq_true_eq] at hdigit
      have hle : c.val.toNat ≤ ('9' : Char).val.toNat := hdigit.2
      exact Nat.lt_of_le_of_lt hle (by decide)
    · rw [List.mem_singleton.mp hend]
      decide
  rw [UInt8.toNat_ofNat_of_lt' (Nat.lt_trans hsmall (by decide))]
  exact hsmall

private theorem not_isNpy_of_prefix {tokens : List UInt32} {text : List Char}
    (h : prepKeys (ε := String) tokens = .ok text) {kept : Bytes}
    (hkept : kept <+: keysBytes text) : ¬ IsNpy kept := by
  rintro ⟨hlength, hmagic⟩
  have hfirst : (147 : UInt8) ∈ kept := by
    apply List.mem_of_mem_take (i := 6)
    rw [hmagic]
    decide
  exact absurd (keysBytes_lt h (hkept.subset hfirst)) (by decide)

/-! ### What a command changes -/

/-- Arguments that name one file and no distribution (`hdist`) make this file the output as well as
the input, so that the command reads from the path it will write to. -/
private theorem readsFrom_of_parse {args : PrepArgs} {out : String}
    (h : PrepArgs.parse env argv = .ok (args, some path, out)) (hdist : args.dist = none) :
    out = path ∧ ReadsFrom env argv path := by
  have hparse := h
  rw [PrepArgs.parse] at h
  split_ifs at h
  obtain ⟨args', -, h⟩ := Except.bind_eq_ok_iff.mp h
  obtain ⟨source, hsource, h⟩ := Except.bind_eq_ok_iff.mp h
  obtain ⟨out', hout, h⟩ := Except.bind_eq_ok_iff.mp h
  simp only [pure, Except.pure, Except.ok.injEq, Prod.mk.injEq] at h
  obtain ⟨rfl, rfl, rfl⟩ := h
  obtain ⟨name, hpos⟩ : ∃ name, args'.pos = [path, name] := by
    rw [PrepArgs.source, hdist] at hsource
    rcases hpos : args'.pos with _ | ⟨tokens, _ | ⟨name, _ | ⟨more, rest⟩⟩⟩ <;>
      rw [hpos] at hsource <;> cases hsource
    exact ⟨name, rfl⟩
  have hsame : out' = path := by
    rw [PrepArgs.outKeys, hpos] at hout
    exact (Except.ok.inj hout).symm
  subst hsame
  exact ⟨rfl, args', name, hparse, hdist, hpos⟩

/-- A command without `--dist` leaves all files alone, or overwrites its token file with keys. -/
theorem cmdPrep_cases (hfile : FromFile env argv) (disk : PrepDisk) :
    ((cmdPrep env argv disk).1 ≠ .ok () ∧ (cmdPrep env argv disk).2 = disk) ∨
      ∃ path tokens text kept, ReadsFrom env argv path ∧
        readTokensNpy path (disk path) = .ok tokens ∧ prepKeys (ε := String) tokens = .ok text ∧
        kept <+: keysBytes text ∧
        (cmdPrep env argv disk).2 = Function.update disk path (.ok kept) ∧
        ((cmdPrep env argv disk).1 = .ok () → kept = keysBytes text) := by
  rw [cmdPrep]
  rcases hparse : PrepArgs.parse env argv with e | ⟨args, source, out⟩
  · exact .inl ⟨nofun, rfl⟩
  have hdist := hfile args source out hparse
  dsimp only
  rcases htokens : prepTokens env disk args source with e | tokens
  · exact .inl ⟨nofun, rfl⟩
  cases source with
  | none =>
    simp only [prepTokens, hdist] at htokens
    cases htokens
  | some path =>
    simp only [prepTokens, hdist] at htokens
    -- the tokens were read from the file, and only now the output is opened
    obtain ⟨rfl, hreads⟩ := readsFrom_of_parse hparse hdist
    obtain ⟨text, htext⟩ := exists_prepKeys tokens
    dsimp only
    rw [htext]
    cases env.opens with
    | some e => exact .inl ⟨nofun, rfl⟩
    | none =>
      refine .inr ⟨out, tokens, text, ?_⟩
      cases env.writes with
      | some failure =>
        exact ⟨_, hreads, htokens, htext, List.take_prefix failure.2 _, rfl, nofun⟩
      | none => exact ⟨_, hreads, htokens, htext, List.prefix_rfl, rfl, fun _ => rfl⟩

/-- A file that is no token file stays as it is. -/
private theorem cmdPrep_of_not_isNpy (hfile : FromFile env argv) {data : Bytes}
    (hdata : disk path = .ok data) (hnot : ¬ IsNpy data) :
    (cmdPrep env argv disk).2 path = .ok data := by
  rcases cmdPrep_cases hfile disk with ⟨-, hsame⟩ | ⟨path', _, _, _, -, hread, -, -, hdisk, -⟩
  · rw [hsame, hdata]
  · rw [hdisk]
    rcases eq_or_ne path path' with rfl | hne
    · rw [hdata, readTokensNpy_of_not_isNpy hnot] at hread
      cases hread
    · rw [Function.update_of_ne hne, hdata]

private theorem prepRun_of_not_isNpy {cmds : List (PrepEnv × List String)}
    (hfile : ∀ c ∈ cmds, FromFile c.1 c.2) {data : Bytes} (hdata : disk path = .ok data)
    (hnot : ¬ IsNpy data) : prepRun cmds disk path = .ok data := by
  induction cmds generalizing disk with
  | nil => exact hdata
  | cons c cmds ih =>
    refine ih (fun c' hc' => hfile c' (List.mem_cons_of_mem _ hc')) ?_
    exact cmdPrep_of_not_isNpy (hfile c List.mem_cons_self) hdata hnot

/-- A file without the magic text of a token file (`hnot`) is refused with an error that quotes its
path, and nothing is written. -/
private theorem cmdPrep_eq_error (hreads : ReadsFrom env argv path) {data : Bytes}
    (hdata : disk path = .ok data) (hnot : ¬ IsNpy data) :
    cmdPrep env argv disk =
      (.error (.error s!"{path.quote} 非 npy（np.save 原生 u32）"), disk) := by
  obtain ⟨args, _, hparse, hdist, -⟩ := hreads
  have htokens : prepTokens env disk args (some path) =
      .error (.error s!"{path.quote} 非 npy（np.save 原生 u32）") := by
    simp only [prepTokens, hdist, hdata, readTokensNpy_of_not_isNpy hnot]
  simp only [cmdPrep, hparse, htokens]

/-- A command without `--dist` that returns has replaced its token file by the keys and has created
no other file, whatever its second name is. No later commands bring the tokens back, and each that
names the file again is refused. -/
theorem cmdPrep_overwrites (hfile : FromFile env argv)
    (hok : (cmdPrep env argv disk).1 = .ok ()) :
    ∃ path tokens text, ReadsFrom env argv path ∧
      readTokensNpy path (disk path) = .ok tokens ∧ prepKeys (ε := String) tokens = .ok text ∧
      (cmdPrep env argv disk).2 = Function.update disk path (.ok (keysBytes text)) ∧
      ∀ later : List (PrepEnv × List String), (∀ c ∈ later, FromFile c.1 c.2) →
        prepRun later (cmdPrep env argv disk).2 path = .ok (keysBytes text) ∧
        ∀ env' argv', ReadsFrom env' argv' path →
          cmdPrep env' argv' (prepRun later (cmdPrep env argv disk).2) =
            (.error (.error s!"{path.quote} 非 npy（np.save 原生 u32）"),
              prepRun later (cmdPrep env argv disk).2) := by
  rcases cmdPrep_cases hfile disk with
    ⟨herror, -⟩ | ⟨path, tokens, text, kept, hreads, hread, htext, hbegins, hdisk, hall⟩
  · exact absurd hok herror
  obtain rfl := hall hok
  have hnot := not_isNpy_of_prefix htext hbegins
  have hself : (cmdPrep env argv disk).2 path = .ok (keysBytes text) := by
    rw [hdisk, Function.update_self]
  refine ⟨path, tokens, text, hreads, hread, htext, hdisk, fun later hlater => ?_⟩
  have hstays := prepRun_of_not_isNpy hlater hself hnot
  exact ⟨hstays, fun env' argv' hreads' => cmdPrep_eq_error hreads' hstays hnot⟩

/-- When the arguments are parsed (`hparse`), the tokens are read (`htokens`) and give keys
(`htext`), and the output is opened and written (`hopens`, `hwrites`), the command returns. -/
private theorem cmdPrep_returns {args : PrepArgs} {source : Option String} {out : String}
    {tokens : List UInt32} {text : List Char}
    (hparse : PrepArgs.parse env argv = .ok (args, source, out))
    (htokens : prepTokens env disk args source = .ok tokens)
    (htext : prepKeys (ε := String) tokens = .ok text) (hopens : env.opens = none)
    (hwrites : env.writes = none) :
    (cmdPrep env argv disk).1 = .ok () := by
  simp only [cmdPrep, hparse, htokens, hopens, htext, hwrites]

/-- Nothing fails. -/
def calmPrep : PrepEnv := ⟨fun _ => .ok (), fun _ => .ok [], none, none⟩

/-- A file of one token, with an empty header. -/
def oneTokenDisk : PrepDisk := fun name =>
  if name = "tokens.npy" then .ok (npyMagic ++ [1, 0, 0, 0] ++ [7, 0, 0, 0])
  else .error "No such file or directory (os error 2)"

/-- The arguments of a command without options. -/
def oneTokenArgs : PrepArgs := { PrepArgs.start with pos := ["tokens.npy", "keys.txt"] }

theorem parse_oneToken : PrepArgs.parse calmPrep ["tokens.npy", "keys.txt"] =
    .ok (oneTokenArgs, some "tokens.npy", "tokens.npy") := by
  rfl

theorem cmdPrep_overwrites_oneToken : ∃ path tokens text,
    readTokensNpy path (oneTokenDisk path) = .ok tokens ∧ prepKeys (ε := String) tokens = .ok text ∧
      (cmdPrep calmPrep ["tokens.npy", "keys.txt"] oneTokenDisk).2 =
        Function.update oneTokenDisk path (.ok (keysBytes text)) := by
  have hfile : FromFile calmPrep ["tokens.npy", "keys.txt"] := by
    intro args source out hparse
    have hargs := (Prod.mk.inj (Except.ok.inj (parse_oneToken.symm.trans hparse))).1
    rw [← hargs]
    rfl
  have hok : (cmdPrep calmPrep ["tokens.npy", "keys.txt"] oneTokenDisk).1 = .ok () := by
    obtain ⟨text, htext⟩ := exists_prepKeys [7]
    exact cmdPrep_returns parse_oneToken (by rfl) htext rfl rfl
  obtain ⟨path, tokens, text, -, hread, htext, hdisk, -⟩ := cmdPrep_overwrites hfile hok
  exact ⟨path, tokens, text, hread, htext, hdisk⟩

end Cli

end EngramDB
