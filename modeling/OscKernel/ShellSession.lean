import OscKernel.Runs
import OscKernel.Shell

/-!
# Sessions of the shell

The loop of `shell` reads a line into the array `raw_cmd` and parses it there. The arguments of a command are
pointers into that array, and those of earlier lines stay in `args` where a later line has fewer. The command
`memAlloc` reads a second line into an array of its own, `num_mem`.
-/

namespace OscKernel.Shell

open CStrings Runs

def maxCmdLength : ℕ := 64

def numLength : ℕ := 6

def cr : UInt8 := 13

def memAlloc : List UInt8 := [109, 101, 109, 65, 108, 108, 111, 99]

def uartGets (m : ByteMem) (ptr : ℕ) : List UInt8 → Option (ByteMem × List UInt8)
  | [] => none
  | ch :: input =>
      if ch = cr then some (Function.update m ptr 0, input)
      else uartGets (Function.update m ptr ch) (ptr + 1) input

/-- What `shell` keeps from one line to the next. The static variable of `strtok` comes with the memory. -/
structure Session where
  strtok : Strtok
  cmd : Command

/-- A round of the loop of `shell`, up to where it looks at the result of `parse_cmd`. -/
def nextCommand (s : Session) (rounds rawCmd : ℕ) (input : List UInt8) : Option (Result × List UInt8) :=
  (uartGets s.strtok.mem rawCmd input).bind fun g =>
    (parseCmd ⟨Function.update g.1 (rawCmd + (maxCmdLength - 1)) 0, s.strtok.p⟩ rounds rawCmd s.cmd).map
      fun r => (r, g.2)

/-- The user types a command and, where it is `memAlloc`, a number. -/
structure Input where
  line : List UInt8
  number : List UInt8

def Input.Fits (i : Input) : Prop :=
  cr ∉ i.line ∧ i.line.length < maxCmdLength ∧ cr ∉ i.number ∧ i.number.length < numLength

instance (i : Input) : Decidable i.Fits := inferInstanceAs (Decidable (_ ∧ _ ∧ _ ∧ _))

def RunsMemAlloc (r : Result) : Prop := r.ret = 0 ∧ Holds r.strtok.mem r.cmd.name memAlloc

/-- The line is read and parsed, and then the command runs. `memAlloc` reads its number; where that does not
fit, anything may come after. Otherwise the commands leave `raw_cmd` and `cmd` alone. -/
def Round (rounds rawCmd numMem : ℕ) (s : Session) (i : Input) (s' : Session) : Prop :=
  ∃ rest r, nextCommand s rounds rawCmd (i.line ++ cr :: rest) = some (r, rest) ∧ ∃ m rest',
    (RunsMemAlloc r → rest = i.number ++ cr :: rest' ∧ uartGets r.strtok.mem numMem rest = some (m, rest')) ∧
    (¬ RunsMemAlloc r → m = r.strtok.mem) ∧
    ((RunsMemAlloc r → i.number.length < numLength) → s'.cmd = r.cmd ∧ s'.strtok.p = r.strtok.p ∧
      ∀ x, rawCmd ≤ x → x < rawCmd + maxCmdLength → s'.strtok.mem x = m x)

def typed (line : List UInt8) : List UInt8 := line.takeWhile (· ≠ 0)

def words (line : List UInt8) : List (List UInt8) := fields space (typed line)

def Apart (numMem rawCmd : ℕ) : Prop := numMem + numLength ≤ rawCmd ∨ rawCmd + maxCmdLength ≤ numMem

variable {s s' s₀ : Session} {st : Strtok} {rounds rawCmd numMem str ptr k i a : ℕ} {cmd : Command}
  {m m' : ByteMem} {line number rest rest' t : List UInt8} {input : Input} {inputs : List Input} {r : Result}

theorem uartGets_line (hcr : cr ∉ line) (rest : List UInt8) :
    uartGets m ptr (line ++ cr :: rest) = some (ByteMem.write m ptr (line ++ [0]), rest) := by
  induction line generalizing m ptr with
  | nil => rfl
  | cons ch line ih =>
      rw [List.mem_cons, not_or] at hcr
      rw [List.cons_append, uartGets, if_neg (Ne.symm hcr.1), ih hcr.2]
      rfl

/-- A number that fits is stored in `num_mem`. -/
theorem uartGets_number (hcr : cr ∉ number) (hlen : number.length < numLength)
    (h : uartGets m numMem (number ++ cr :: rest) = some (m', rest')) :
    rest' = rest ∧ ∀ x, x < numMem ∨ numMem + numLength ≤ x → m' x = m x := by
  rw [uartGets_line hcr] at h
  obtain ⟨rfl, rfl⟩ := Prod.mk.inj (Option.some.inj h)
  refine ⟨rfl, fun x hx => ByteMem.write_outside _ _ _ ?_⟩
  rw [List.length_append, List.length_singleton]
  omega

theorem typed_spec (line : List UInt8) :
    (0 : UInt8) ∉ typed line ∧ ∃ t, line ++ [0] = typed line ++ 0 :: t := by
  induction line with
  | nil => exact ⟨List.not_mem_nil, [], rfl⟩
  | cons ch line ih =>
      obtain ⟨hnot, t, ht⟩ := ih
      by_cases hch : ch = 0
      · subst hch
        exact ⟨List.not_mem_nil, line ++ [0], rfl⟩
      · have hcons : typed (ch :: line) = ch :: typed line := List.takeWhile_cons_of_pos (decide_eq_true hch)
        rw [hcons]
        refine ⟨?_, t, by rw [List.cons_append, ht, List.cons_append]⟩
        rw [List.mem_cons, not_or]
        exact ⟨Ne.symm hch, hnot⟩

theorem typed_length (line : List UInt8) : (typed line).length ≤ line.length :=
  (List.takeWhile_sublist _).length_le

theorem holds_typed : Holds (ByteMem.write m a (line ++ [0])) a (typed line) := by
  obtain ⟨hnot, t, ht⟩ := typed_spec line
  have hline : line ++ [0] = (typed line ++ [0]) ++ t := by rw [ht, List.append_assoc]; rfl
  rw [hline, ByteMem.write_append]
  refine (holds_write hnot).congr_range fun x _ hx => ByteMem.write_outside _ _ _ (Or.inl ?_)
  rw [List.length_append, List.length_singleton]
  omega

/-- The loop stores a pointer into the line for each field that is left, and nothing else. -/
theorem parseArgs_args (hp : 0 < st.p) (h : Holds st.mem st.p t) (hr : t.length ≤ rounds)
    (hargc : cmd.argc = k) (hk : k ≤ maxArgs)
    (hparse : parseArgs (strtok st rounds 0 space).1 rounds cmd (strtok st rounds 0 space).2 = some r)
    (hi : i < maxArgs) :
    (k ≤ i → i < k + (fields space t).length →
      st.p ≤ r.cmd.args[i] ∧ r.cmd.args[i] ≤ st.p + t.length) ∧
    (i < k ∨ k + (fields space t).length ≤ i → r.cmd.args[i] = cmd.args[i]) := by
  induction hn : t.length using Nat.strong_induction_on generalizing st t cmd k with
  | h n ih =>
      subst hn
      have hstr : (if 0 ≠ 0 then 0 else st.p) = st.p := rfl
      rcases strtok_cases hp hstr h (by decide : space ≠ 0) hr with
        ⟨rfl, heq⟩ | ⟨s', w, t', heq, hcut, hf, hend, hlt⟩
      · rw [heq, parseArgs, if_pos rfl] at hparse
        obtain rfl := Option.some.inj hparse
        rw [fields_nil, List.length_nil]
        exact ⟨fun hlo hhi => by omega, fun _ => rfl⟩
      · rw [heq] at hparse
        by_cases hfull : maxArgs ≤ cmd.argc
        · rw [parseArgs, if_neg hp.ne', if_pos hfull] at hparse
          obtain rfl := Option.some.inj hparse
          exact ⟨fun hlo _ => by omega, fun _ => rfl⟩
        · have hk' : k < maxArgs := by omega
          have hle := hcut.length_le
          rw [parseArgs_push hp.ne' (not_le.1 hfull) (pushArg_eq hargc hk' st.p)] at hparse
          have hpushed : ({ cmd with args := cmd.args.set k st.p, argc := (k + 1 : ℕ) } : Command).argc =
            (k + 1 : ℕ) := rfl
          obtain ⟨hset, hkeep⟩ := ih t'.length hlt (by omega) hcut.rest (by omega) hpushed hk' hparse rfl
          rw [hf, List.length_cons]
          refine ⟨fun hlo hhi => ?_, fun hout => ?_⟩
          · rcases hlo.eq_or_lt with rfl | hlt'
            · rw [hkeep (Or.inl (Nat.lt_succ_self _)), Vector.getElem_set_self]
              omega
            · have := hset hlt' (by omega)
              omega
          · rw [hkeep (by omega), Vector.getElem_set_ne _ _ (by omega)]

/-- `parse_cmd` ends, writes only to the line, and sets as many entries of `args` as there are arguments. -/
theorem parseCmd_args (st : Strtok) (cmd : Command) (hstr : 0 < str) (h : Holds st.mem str t)
    (hr : t.length ≤ rounds) : ∃ r, parseCmd st rounds str cmd = some r ∧
      (∀ x, x < str ∨ str + t.length ≤ x → r.strtok.mem x = st.mem x) ∧
      ∀ i (_ : i < maxArgs),
        (i + 1 < (fields space t).length → str ≤ r.cmd.args[i] ∧ r.cmd.args[i] ≤ str + t.length) ∧
        ((fields space t).length ≤ i + 1 → r.cmd.args[i] = cmd.args[i]) := by
  have hself : (if str ≠ 0 then str else st.p) = str := if_pos hstr.ne'
  rcases strtok_cases hstr hself h (by decide : space ≠ 0) hr with
    ⟨rfl, -⟩ | ⟨s', w, t', heq, hcut, hf, hend, hlt⟩
  · refine ⟨_, parseCmd_nil hstr h, fun x _ => rfl, fun i hi => ⟨fun hlt => ?_, fun _ => rfl⟩⟩
    rw [fields_nil, List.length_nil] at hlt
    omega
  · have hle := hcut.length_le
    have hp' : 0 < s'.p := by omega
    have hr' : t'.length ≤ rounds := by omega
    have hstart : ({ cmd with name := str, argc := 0 } : Command).argc = (0 : ℕ) := rfl
    obtain ⟨r, hparse, hparsed⟩ := parseArgs_spec hp' hcut.rest hr' hstart (Nat.zero_le _)
    refine ⟨r, ?_, fun x hx => ?_, fun i hi => ?_⟩
    · rw [parseCmd, if_neg hstr.ne', heq]
      exact hparse
    · rw [hparsed.outside x (by omega), hcut.outside x (by omega)]
    · obtain ⟨hset, hkeep⟩ := parseArgs_args hp' hcut.rest hr' hstart (Nat.zero_le _) hparse hi
      rw [hf, List.length_cons]
      refine ⟨fun hlt => ?_, fun hout => hkeep (Or.inr (by omega))⟩
      have := hset (Nat.zero_le _) (by omega)
      omega

def afterLine (m : ByteMem) (rawCmd : ℕ) (line : List UInt8) : ByteMem :=
  Function.update (ByteMem.write m rawCmd (line ++ [0])) (rawCmd + (maxCmdLength - 1)) 0

/-- The NUL that `shell` puts at the end of `raw_cmd` changes no line that fits. -/
theorem holds_line (hlen : line.length < maxCmdLength) :
    Holds (afterLine m a line) a (typed line) := by
  have hmax : maxCmdLength = 64 := rfl
  have hle := typed_length line
  by_cases hfull : (typed line).length = maxCmdLength - 1
  · have hend : ByteMem.write m a (line ++ [0]) (a + (typed line).length) = 0 :=
      holds_nil.1 (List.append_nil (typed line) ▸ holds_typed).right
    rw [hfull] at hend
    have hself := Function.update_eq_self (a + (maxCmdLength - 1)) (ByteMem.write m a (line ++ [0]))
    rw [hend] at hself
    rw [afterLine, hself]
    exact holds_typed
  · refine holds_typed.congr_range fun x _ hx => Function.update_of_ne ?_ _ _
    omega

/-- A line that fits into `raw_cmd` is read and parsed. -/
theorem nextCommand_spec (hraw : 0 < rawCmd) (hrounds : maxCmdLength ≤ rounds) (hcr : cr ∉ line)
    (hlen : line.length < maxCmdLength) (s : Session) (rest : List UInt8) :
    ∃ r, nextCommand s rounds rawCmd (line ++ cr :: rest) = some (r, rest) ∧
      (∀ x, x < rawCmd ∨ rawCmd + maxCmdLength ≤ x → r.strtok.mem x = s.strtok.mem x) ∧
      r.strtok.mem (rawCmd + (maxCmdLength - 1)) = 0 ∧
      ∀ i (_ : i < maxArgs),
        (i + 1 < (words line).length → rawCmd ≤ r.cmd.args[i] ∧ r.cmd.args[i] < rawCmd + maxCmdLength) ∧
        ((words line).length ≤ i + 1 → r.cmd.args[i] = s.cmd.args[i]) := by
  have hmax : maxCmdLength = 64 := rfl
  have hle := typed_length line
  obtain ⟨r, hparse, hout, hargs⟩ := parseCmd_args ⟨afterLine s.strtok.mem rawCmd line, s.strtok.p⟩ s.cmd
    hraw (holds_line hlen) (hle.trans (hlen.le.trans hrounds))
  refine ⟨r, ?_, fun x hx => ?_, ?_, fun i hi => ⟨fun hlt => ?_, (hargs i hi).2⟩⟩
  · rw [nextCommand, uartGets_line hcr, Option.bind_some, ← afterLine, hparse]
    rfl
  · rw [hout x (by omega)]
    refine (Function.update_of_ne (by omega) _ _).trans ?_
    refine ByteMem.write_outside _ _ _ ?_
    rw [List.length_append, List.length_singleton]
    omega
  · rw [hout _ (by omega)]
    exact Function.update_self ..
  · have := (hargs i hi).1 hlt
    omega

theorem Round.spec (h : Round rounds rawCmd numMem s input s') (hraw : 0 < rawCmd)
    (hrounds : maxCmdLength ≤ rounds) (hapart : Apart numMem rawCmd) (hfits : input.Fits) :
    s'.strtok.mem (rawCmd + (maxCmdLength - 1)) = 0 ∧ ∀ i (_ : i < maxArgs),
      (i + 1 < (words input.line).length →
        rawCmd ≤ s'.cmd.args[i] ∧ s'.cmd.args[i] < rawCmd + maxCmdLength) ∧
      ((words input.line).length ≤ i + 1 → s'.cmd.args[i] = s.cmd.args[i]) := by
  have hmax : maxCmdLength = 64 := rfl
  obtain ⟨hcr, hlen, hcr', hlen'⟩ := hfits
  obtain ⟨rest, r, heq, m, rest', hnumber, hother, hleft⟩ := h
  obtain ⟨r', heq', -, hend, hargs⟩ := nextCommand_spec hraw hrounds hcr hlen s rest
  obtain rfl : r = r' := congrArg Prod.fst (Option.some.inj (heq.symm.trans heq'))
  obtain ⟨hcmd, -, hmem⟩ := hleft fun _ => hlen'
  have hsame : m (rawCmd + (maxCmdLength - 1)) = r.strtok.mem (rawCmd + (maxCmdLength - 1)) := by
    by_cases hruns : RunsMemAlloc r
    · obtain ⟨rfl, hgets⟩ := hnumber hruns
      refine (uartGets_number hcr' hlen' hgets).2 _ ?_
      rcases hapart with hbelow | habove
      · exact Or.inr (by omega)
      · exact Or.inl (by omega)
    · rw [hother hruns]
  rw [hcmd, hmem _ (by omega) (by omega), hsame]
  exact ⟨hend, hargs⟩

structure Session.After (rawCmd : ℕ) (s₀ : Session) (inputs : List Input) (s : Session) : Prop where
  closed : inputs ≠ [] → s.strtok.mem (rawCmd + (maxCmdLength - 1)) = 0
  unset : ∀ i (_ : i < maxArgs), (∀ l ∈ inputs, (words l.line).length ≤ i + 1) →
    s.cmd.args[i] = s₀.cmd.args[i]
  set : ∀ i (_ : i < maxArgs), (∃ l ∈ inputs, i + 1 < (words l.line).length) →
    rawCmd ≤ s.cmd.args[i] ∧ s.cmd.args[i] < rawCmd + maxCmdLength

theorem Session.After.round (h : s₀.After rawCmd inputs s) (hround : Round rounds rawCmd numMem s input s')
    (hraw : 0 < rawCmd) (hrounds : maxCmdLength ≤ rounds) (hapart : Apart numMem rawCmd)
    (hfits : input.Fits) : s₀.After rawCmd (inputs ++ [input]) s' := by
  obtain ⟨hend, hargs⟩ := hround.spec hraw hrounds hapart hfits
  refine ⟨fun _ => hend, fun i hi hfew => ?_, fun i hi hmany => ?_⟩
  · rw [(hargs i hi).2 (hfew input (List.mem_concat_self ..))]
    exact h.unset i hi fun l hl => hfew l (List.mem_append_left _ hl)
  · by_cases hline : i + 1 < (words input.line).length
    · exact (hargs i hi).1 hline
    · obtain ⟨l, hl, hlt⟩ := hmany
      have hold : l ∈ inputs := by
        rcases List.mem_append.1 hl with hl | hl
        · exact hl
        · rw [List.mem_singleton.1 hl] at hlt
          exact absurd hlt hline
      rw [(hargs i hi).2 (not_lt.1 hline)]
      exact h.set i hi ⟨l, hold, hlt⟩

theorem Session.After.run (hraw : 0 < rawCmd) (hrounds : maxCmdLength ≤ rounds)
    (hapart : Apart numMem rawCmd) (hfits : ∀ l ∈ inputs, l.Fits)
    (hrun : Trace (Round rounds rawCmd numMem) s₀ inputs s) : s₀.After rawCmd inputs s := by
  induction hrun with
  | nil => exact ⟨fun h => absurd rfl h, fun _ _ _ => rfl, fun _ _ ⟨_, hl, _⟩ => absurd hl List.not_mem_nil⟩
  | snoc _ hround ih =>
      have hlast := hfits _ (List.mem_concat_self ..)
      exact (ih fun l hl => hfits l (List.mem_append_left _ hl)).round hround hraw hrounds hapart hlast

/-- In a session of lines that fit into `raw_cmd`, and numbers that fit into `num_mem`, an entry of `args` is
not set before a line with that many arguments has come. From then on it is a string in `raw_cmd`, also for a
command that has fewer arguments. And the next line is again read and parsed without a store outside `raw_cmd`
and `args`, and the number behind it without one outside `num_mem`. -/
theorem session_args (hraw : 0 < rawCmd) (hrounds : maxCmdLength ≤ rounds) (hapart : Apart numMem rawCmd)
    (hfits : ∀ l ∈ inputs, l.Fits) (hrun : Trace (Round rounds rawCmd numMem) s₀ inputs s) :
    (∀ i (_ : i < maxArgs),
      ((∀ l ∈ inputs, (words l.line).length ≤ i + 1) → s.cmd.args[i] = s₀.cmd.args[i]) ∧
      ((∃ l ∈ inputs, i + 1 < (words l.line).length) → ∃ w, Holds s.strtok.mem s.cmd.args[i] w ∧
        rawCmd ≤ s.cmd.args[i] ∧ s.cmd.args[i] + w.length < rawCmd + maxCmdLength)) ∧
    ∀ (input : Input) (rest : List UInt8), input.Fits → ∃ r,
      nextCommand s rounds rawCmd (input.line ++ cr :: rest) = some (r, rest) ∧
        (∀ x, x < rawCmd ∨ rawCmd + maxCmdLength ≤ x → r.strtok.mem x = s.strtok.mem x) ∧
        ∀ rest', ∃ m, uartGets r.strtok.mem numMem (input.number ++ cr :: rest') = some (m, rest') ∧
          ∀ x, x < numMem ∨ numMem + numLength ≤ x → m x = r.strtok.mem x := by
  have hmax : maxCmdLength = 64 := rfl
  have hafter := Session.After.run hraw hrounds hapart hfits hrun
  refine ⟨fun i hi => ⟨hafter.unset i hi, fun hset => ?_⟩, fun input rest hfit => ?_⟩
  · obtain ⟨hlo, hhi⟩ := hafter.set i hi hset
    obtain ⟨l, hl, -⟩ := hset
    have hend := hafter.closed (List.ne_nil_of_mem hl)
    obtain ⟨w, hw, hle⟩ := exists_holds (by omega : s.cmd.args[i] ≤ rawCmd + (maxCmdLength - 1)) hend
    exact ⟨w, hw, hlo, by omega⟩
  · obtain ⟨hcr, hlen, hcr', hlen'⟩ := hfit
    obtain ⟨r, heq, hout, -⟩ := nextCommand_spec hraw hrounds hcr hlen s rest
    refine ⟨r, heq, hout, fun rest' => ?_⟩
    have hgets : uartGets r.strtok.mem numMem (input.number ++ cr :: rest') =
      some (ByteMem.write r.strtok.mem numMem (input.number ++ [0]), rest') := uartGets_line hcr' rest'
    exact ⟨_, hgets, (uartGets_number hcr' hlen' hgets).2⟩

theorem exists_round (hraw : 0 < rawCmd) (hrounds : maxCmdLength ≤ rounds) (hfits : input.Fits)
    (s : Session) : ∃ s', Round rounds rawCmd numMem s input s' := by
  obtain ⟨hcr, hlen, hcr', -⟩ := hfits
  obtain ⟨r, heq, -⟩ := nextCommand_spec hraw hrounds hcr hlen s (input.number ++ [cr])
  by_cases hruns : RunsMemAlloc r
  · refine ⟨⟨⟨ByteMem.write r.strtok.mem numMem (input.number ++ [0]), r.strtok.p⟩, r.cmd⟩, _, r, heq, _, [],
      fun _ => ⟨rfl, uartGets_line hcr' []⟩, fun h => absurd hruns h, fun _ => ⟨rfl, rfl, fun _ _ _ => rfl⟩⟩
  · exact ⟨⟨r.strtok, r.cmd⟩, _, r, heq, _, [], fun h => absurd h hruns, fun _ => rfl,
      fun _ => ⟨rfl, rfl, fun _ _ _ => rfl⟩⟩

/-- The line `"cat a"`, `"memAlloc"` with the number `16`, and the line `"cat"`. -/
def catFile : Input := ⟨[99, 97, 116, 32, 97], []⟩

def allocNumber : Input := ⟨memAlloc, [49, 54]⟩

def catNothing : Input := ⟨[99, 97, 116], []⟩

def freshSession : Session := ⟨⟨fun _ => 0, 0⟩, blankCommand⟩

/-- The second `cat` has an argument too. -/
theorem session_args_stale : ∃ s,
    Trace (Round 64 4096 8192) freshSession [catFile, allocNumber, catNothing] s ∧
      ∃ (_ : 0 < maxArgs) (w : List UInt8), Holds s.strtok.mem s.cmd.args[0] w ∧ 4096 ≤ s.cmd.args[0] ∧
        s.cmd.args[0] + w.length < 4096 + maxCmdLength := by
  have hraw : 0 < 4096 := by decide
  have hfits : ∀ l ∈ [catFile, allocNumber, catNothing], l.Fits := by decide
  have hround : ∀ s, ∀ l ∈ [catFile, allocNumber, catNothing], ∃ s', Round 64 4096 8192 s l s' :=
    fun s l hl => exists_round hraw (le_refl maxCmdLength) (hfits l hl) s
  obtain ⟨s₁, h₁⟩ := hround freshSession catFile (by simp)
  obtain ⟨s₂, h₂⟩ := hround s₁ allocNumber (by simp)
  obtain ⟨s, h₃⟩ := hround s₂ catNothing (by simp)
  have hrun : Trace (Round 64 4096 8192) freshSession [catFile, allocNumber, catNothing] s :=
    ((Trace.nil.snoc h₁).snoc h₂).snoc h₃
  have hzero : 0 < maxArgs := by decide
  have hargs := session_args hraw (le_refl maxCmdLength) (Or.inr (by decide)) hfits hrun
  exact ⟨s, hrun, hzero, (hargs.1 0 hzero).2 ⟨catFile, List.mem_cons_self .., by decide⟩⟩

end OscKernel.Shell
