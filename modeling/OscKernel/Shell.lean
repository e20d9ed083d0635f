import OscKernel.CStrings

/-!
# Command lines

`parse_cmd` of `shell.c` and `strtok` of `string.c`. A call of `strtok` overwrites the separator behind
the token that it returns, and keeps a pointer to what is left of the line in a static variable.
-/

namespace OscKernel.Shell

open CStrings

def maxArgs : ℕ := 8

def space : UInt8 := 32

structure Strtok where
  mem : ByteMem
  p : ℕ

def strtok (s : Strtok) (rounds str : ℕ) (delim : UInt8) : Strtok × ℕ :=
  let p := if str ≠ 0 then str else s.p
  if p = 0 ∨ s.mem p = 0 then (⟨s.mem, p⟩, 0)
  else
    let ret := p
    let p := scan s.mem (fun c => c ≠ delim ∧ c ≠ 0) rounds p
    if s.mem p = delim then (⟨Function.update s.mem p 0, p + 1⟩, ret) else (⟨s.mem, p⟩, ret)

structure Command where
  name : ℕ
  args : Vector ℕ maxArgs
  argc : ℤ

/-- `cmd->args[cmd->argc] = arg; cmd->argc++`, `none` for a store outside `args`. -/
def Command.pushArg (cmd : Command) (arg : ℕ) : Option Command :=
  if h : 0 ≤ cmd.argc ∧ cmd.argc < maxArgs then
    some { cmd with args := cmd.args.set cmd.argc.toNat arg (by omega), argc := cmd.argc + 1 }
  else none

theorem Command.pushArg_argc {cmd cmd' : Command} {arg : ℕ} (h : cmd.pushArg arg = some cmd') :
    cmd'.argc = cmd.argc + 1 := by
  unfold Command.pushArg at h
  split_ifs at h
  rw [← Option.some.inj h]

structure Result where
  strtok : Strtok
  cmd : Command
  ret : ℕ

def parseArgs (s : Strtok) (rounds : ℕ) (cmd : Command) (arg : ℕ) : Option Result :=
  if arg = 0 then some ⟨s, cmd, 0⟩
  else if maxArgs ≤ cmd.argc then some ⟨s, cmd, 2⟩
  else
    match _hpush : cmd.pushArg arg with
    | none => none
    | some cmd =>
        let r := strtok s rounds 0 space
        parseArgs r.1 rounds cmd r.2
termination_by (maxArgs - cmd.argc).toNat
decreasing_by
  rw [Command.pushArg_argc _hpush]
  omega

def parseCmd (s : Strtok) (rounds str : ℕ) (cmd : Command) : Option Result :=
  if str = 0 then some ⟨s, cmd, 1⟩
  else
    let name := strtok s rounds str space
    let arg := strtok name.1 rounds 0 space
    parseArgs arg.1 rounds { cmd with name := name.2, argc := 0 } arg.2

variable {s s' : Strtok} {rounds str p k : ℕ} {delim : UInt8} {line t t' w : List UInt8} {cmd : Command}

structure Cut (s : Strtok) (p : ℕ) (w t : List UInt8) (s' : Strtok) : Prop where
  token : Holds s'.mem p w
  rest : Holds s'.mem s'.p t
  room : p + w.length < s'.p ∨ t = []
  length_le : p + w.length ≤ s'.p
  outside : ∀ x, x < p ∨ s'.p ≤ x → s'.mem x = s.mem x

/-- A token stays when only what is left of the line changes. -/
theorem Cut.token_later {m : ByteMem} (h : Cut s p w t s')
    (hm : ∀ x, x < s'.p ∨ s'.p + t.length ≤ x → m x = s'.mem x) : Holds m p w := by
  refine h.token.congr_range fun x _ hhi => hm x ?_
  rcases h.room with hroom | rfl
  · omega
  · rw [List.length_nil]
    omega

theorem takeWhile_token (h0 : (0 : UInt8) ∉ w) (hw : delim ∉ w) :
    w.takeWhile (fun c => decide (c ≠ delim ∧ c ≠ 0)) = w := by
  refine List.takeWhile_eq_self_iff.2 fun c hc => decide_eq_true ⟨?_, ?_⟩
  · rintro rfl
    exact hw hc
  · rintro rfl
    exact h0 hc

/-- A call at the end of the line returns `NULL`, and any other the next field. -/
theorem strtok_cases (hp : 0 < p) (hstr : (if str ≠ 0 then str else s.p) = p) (h : Holds s.mem p t)
    (hd : delim ≠ 0) (hr : t.length ≤ rounds) :
    t = [] ∧ strtok s rounds str delim = (⟨s.mem, p⟩, 0) ∨
      ∃ s' w t', strtok s rounds str delim = (s', p) ∧ Cut s p w t' s' ∧
        fields delim t = w :: fields delim t' ∧ s'.p + t'.length = p + t.length ∧
        t'.length < t.length := by
  cases t with
  | nil =>
      apply Or.inl
      rw [strtok, hstr, if_pos (Or.inr (holds_nil.1 h))]
      exact ⟨rfl, rfl⟩
  | cons b t =>
      apply Or.inr
      obtain ⟨hb, hbp, -⟩ := holds_cons.1 h
      have hgo : ¬ (p = 0 ∨ s.mem p = 0) := by
        rw [hbp]
        exact fun h0 => h0.elim (fun h0 => by omega) hb
      have hscan := scan_holds (p := fun c => decide (c ≠ delim ∧ c ≠ 0)) (by simp) h hr
      rw [strtok, hstr, if_neg hgo]
      rcases split_token (c := delim) (b :: t) with hnot | ⟨w, t', hw, heq⟩
      · rw [takeWhile_token h.1 hnot] at hscan
        have hend : s.mem (p + (b :: t).length) = 0 := holds_nil.1 (List.append_nil (b :: t) ▸ h).right
        simp only [hscan, hend, if_neg hd.symm]
        refine ⟨_, b :: t, [], rfl, ⟨h, holds_nil.2 hend, Or.inr rfl, le_rfl, fun x _ => rfl⟩,
          fields_of_not_mem hnot (List.cons_ne_nil b t), rfl, Nat.succ_pos _⟩
      · rw [heq] at h hscan ⊢
        have htake : (w ++ delim :: t').takeWhile (fun c => decide (c ≠ delim ∧ c ≠ 0)) = w := by
          have hw0 : (0 : UInt8) ∉ w := fun h0 => h.1 (List.mem_append_left _ h0)
          rw [List.takeWhile_append_of_pos (List.takeWhile_eq_self_iff.1 (takeWhile_token hw0 hw)),
            List.takeWhile_cons_of_neg (by simp), List.append_nil]
        rw [htake] at hscan
        have hsep : s.mem (p + w.length) = delim := (holds_cons.1 h.right).2.1
        obtain ⟨htoken, hrest⟩ := h.cut
        simp only [hscan, hsep, if_true]
        refine ⟨_, w, t', rfl, ⟨htoken, hrest, Or.inl (Nat.lt_succ_self _), Nat.le_succ _, ?_⟩,
          fields_append hw t', ?_, ?_⟩
        · intro x hx
          exact Function.update_of_ne (by simp only at hx; omega) _ _
        · simp only [List.length_append, List.length_cons]
          omega
        · simp only [List.length_append, List.length_cons]
          omega

/-- What the loop does from a state where `t` is left of the line and `k` arguments are stored. -/
structure Parsed (s : Strtok) (p : ℕ) (t : List UInt8) (cmd : Command) (k : ℕ) (r : Result) : Prop where
  name : r.cmd.name = cmd.name
  ret : r.ret = if maxArgs < k + (fields space t).length then 2 else 0
  outside : ∀ x, x < p ∨ p + t.length ≤ x → r.strtok.mem x = s.mem x
  args : r.ret = 0 → r.cmd.argc = (k + (fields space t).length : ℕ) ∧
    ∃ ps, r.cmd.args.toList.take (k + (fields space t).length) = cmd.args.toList.take k ++ ps ∧
      List.Forall₂ (Holds r.strtok.mem) ps (fields space t)

theorem pushArg_eq (hargc : cmd.argc = k) (hk : k < maxArgs) (arg : ℕ) :
    cmd.pushArg arg = some { cmd with args := cmd.args.set k arg, argc := (k + 1 : ℕ) } := by
  obtain ⟨name, args, argc⟩ := cmd
  change argc = k at hargc
  subst hargc
  rw [Command.pushArg, dif_pos ⟨Int.natCast_nonneg k, Int.ofNat_lt.2 hk⟩]
  rfl

theorem parseArgs_push {cmd' : Command} {arg : ℕ} (harg : arg ≠ 0) (hroom : cmd.argc < maxArgs)
    (hpush : cmd.pushArg arg = some cmd') : parseArgs s rounds cmd arg =
      parseArgs (strtok s rounds 0 space).1 rounds cmd' (strtok s rounds 0 space).2 := by
  rw [parseArgs, if_neg harg, if_neg (not_le.2 hroom)]
  split
  · next hnone => exact absurd (hnone.symm.trans hpush) (by simp)
  · next cmd₁ hsome => rw [Option.some.inj (hsome.symm.trans hpush)]

theorem take_set (args : Vector ℕ maxArgs) (hk : k < maxArgs) (arg : ℕ) :
    (args.set k arg).toList.take (k + 1) = args.toList.take k ++ [arg] := by
  rw [Vector.toList_set, List.take_succ_eq_append_getElem (by simpa using hk),
    List.take_set_of_le le_rfl, List.getElem_set_self]

theorem parseArgs_spec (hp : 0 < s.p) (h : Holds s.mem s.p t) (hr : t.length ≤ rounds)
    (hargc : cmd.argc = k) (hk : k ≤ maxArgs) :
    ∃ r, parseArgs (strtok s rounds 0 space).1 rounds cmd (strtok s rounds 0 space).2 = some r ∧
      Parsed s s.p t cmd k r := by
  induction hn : t.length using Nat.strong_induction_on generalizing s t cmd k with
  | h n ih =>
      subst hn
      have hstr : (if 0 ≠ 0 then 0 else s.p) = s.p := rfl
      rcases strtok_cases hp hstr h (by decide : space ≠ 0) hr with
        ⟨rfl, heq⟩ | ⟨s', w, t', heq, hcut, hf, hend, hlt⟩
      · rw [heq, parseArgs, if_pos rfl]
        refine ⟨_, rfl, rfl, ?_, fun x _ => rfl, fun _ => ⟨hargc, [], ?_, List.Forall₂.nil⟩⟩
        · rw [fields_nil, if_neg]
          exact Nat.not_lt.2 hk
        · rw [List.append_nil]
          rfl
      · rw [heq]
        have hout : ∀ x, x < s.p ∨ s.p + t.length ≤ x → s'.mem x = s.mem x :=
          fun x hx => hcut.outside x (by omega)
        by_cases hfull : maxArgs ≤ cmd.argc
        · have htoo : maxArgs < k + (fields space t).length := by
            rw [hf, List.length_cons]
            omega
          rw [parseArgs, if_neg hp.ne', if_pos hfull]
          exact ⟨_, rfl, rfl, (if_pos htoo).symm, hout, fun h0 => absurd h0 two_ne_zero⟩
        · have hk' : k < maxArgs := by omega
          have hp' : 0 < s'.p := by
            have := hcut.length_le
            omega
          rw [parseArgs_push hp.ne' (not_le.1 hfull) (pushArg_eq hargc hk' s.p)]
          have hpushed : ({ cmd with args := cmd.args.set k s.p, argc := (k + 1 : ℕ) } : Command).argc =
            (k + 1 : ℕ) := rfl
          obtain ⟨r, hr, hparsed⟩ := ih t'.length hlt hp' hcut.rest (by omega) hpushed hk' rfl
          have hcount : k + (fields space t).length = k + 1 + (fields space t').length := by
            rw [hf, List.length_cons]
            omega
          refine ⟨r, hr, hparsed.name, ?_, fun x hx => ?_, fun h0 => ?_⟩
          · rw [hcount]
            exact hparsed.ret
          · rw [hparsed.outside x (by have := hcut.length_le; omega)]
            exact hout x hx
          · obtain ⟨hargc', ps, htake, hps⟩ := hparsed.args h0
            rw [hcount, hf]
            refine ⟨hargc', s.p :: ps, ?_, List.Forall₂.cons ?_ hps⟩
            · rw [htake, take_set _ hk', List.append_assoc]
              rfl
            · exact hcut.token_later hparsed.outside

/-- What is left when `parse_cmd` is done with a line: a result `0` comes with the name and the arguments,
which are the fields of the line. -/
structure ParsesTo (m : ByteMem) (str : ℕ) (line : List UInt8) (r : Result) : Prop where
  ret : r.ret = if maxArgs < (fields space line).tail.length then 2 else 0
  name : r.ret = 0 → r.cmd.name ≠ 0 ∧ str ≤ r.cmd.name ∧ r.cmd.name ≤ str + line.length
  argc : r.ret = 0 → 0 ≤ r.cmd.argc ∧ r.cmd.argc ≤ maxArgs
  fields : r.ret = 0 → List.Forall₂ (Holds r.strtok.mem)
    (r.cmd.name :: r.cmd.args.toList.take r.cmd.argc.toNat) (fields space line)
  outside : ∀ x, x < str ∨ str + line.length ≤ x → r.strtok.mem x = m x

/-- No store of `parse_cmd` goes outside `args`, and it parses the line. -/
def Parses (s : Strtok) (rounds str : ℕ) (line : List UInt8) (cmd : Command) : Prop :=
  ∃ r, parseCmd s rounds str cmd = some r ∧ ParsesTo s.mem str line r

theorem parseCmd_nil (hstr : 0 < str) (h : Holds s.mem str []) :
    parseCmd s rounds str cmd = some ⟨⟨s.mem, str⟩, { cmd with name := 0, argc := 0 }, 0⟩ := by
  have hfirst : strtok s rounds str space = (⟨s.mem, str⟩, 0) := by
    rw [strtok, if_pos hstr.ne', if_pos (Or.inr (holds_nil.1 h))]
  have hnext : strtok ⟨s.mem, str⟩ rounds 0 space = (⟨s.mem, str⟩, 0) := by
    rw [strtok, if_neg (not_not.2 rfl), if_pos (Or.inr (holds_nil.1 h))]
  rw [parseCmd, if_neg hstr.ne']
  simp only [hfirst, hnext]
  rw [parseArgs, if_pos rfl]

theorem parse_cmd_iff (hstr : 0 < str) (h : Holds s.mem str line) (hr : line.length ≤ rounds) :
    Parses s rounds str line cmd ↔ line ≠ [] := by
  constructor
  · rintro ⟨r, hparse, hto⟩ rfl
    rw [parseCmd_nil hstr h] at hparse
    obtain rfl := Option.some.inj hparse
    exact (hto.name rfl).1 rfl
  · intro hne
    have hself : (if str ≠ 0 then str else s.p) = str := if_pos hstr.ne'
    rcases strtok_cases hstr hself h (by decide : space ≠ 0) hr with
      ⟨rfl, -⟩ | ⟨s', w, t', heq, hcut, hf, hend, hlt⟩
    · exact absurd rfl hne
    have hp' : 0 < s'.p := by
      have := hcut.length_le
      omega
    have hstart : ({ cmd with name := str, argc := 0 } : Command).argc = (0 : ℕ) := rfl
    have hr' : t'.length ≤ rounds := hlt.le.trans hr
    obtain ⟨r, hparse, hparsed⟩ := parseArgs_spec hp' hcut.rest hr' hstart (Nat.zero_le _)
    have hret := hparsed.ret
    rw [Nat.zero_add] at hret
    refine ⟨r, ?_, ?_, fun h0 => ?_, fun h0 => ?_, fun h0 => ?_, fun x hx => ?_⟩
    · rw [parseCmd, if_neg hstr.ne', heq]
      exact hparse
    · rw [hf]
      exact hret
    · rw [hparsed.name]
      exact ⟨hstr.ne', le_rfl, Nat.le_add_right _ _⟩
    · obtain ⟨hargc, -⟩ := hparsed.args h0
      rw [h0] at hret
      split_ifs at hret
      omega
    · obtain ⟨hargc, ps, htake, hps⟩ := hparsed.args h0
      rw [hargc, Int.toNat_natCast, htake, hparsed.name, hf]
      exact List.Forall₂.cons (hcut.token_later hparsed.outside) hps
    · rw [hparsed.outside x (by have := hcut.length_le; omega)]
      exact hcut.outside x (by omega)

def blankCommand : Command := ⟨0, Vector.replicate maxArgs 0, -1⟩

def sampleLine : List UInt8 := [108, 115, 32, 32, 97, 32]

def sampleStrtok : Strtok := ⟨ByteMem.write (fun _ => 0) 4096 (sampleLine ++ [0]), 0⟩

theorem parse_cmd_sample : fields space sampleLine = [[108, 115], [], [97]] ∧
    Parses sampleStrtok 64 4096 sampleLine blankCommand :=
  ⟨by decide, (parse_cmd_iff (by decide) (holds_write (by decide)) (by decide)).2 (by decide)⟩

/-- The empty line is parsed without an error, and the name is `NULL`. -/
theorem parse_cmd_empty_line : ¬ Parses ⟨fun _ => 0, 0⟩ 64 4096 [] blankCommand := by
  rintro ⟨r, hparse, hto⟩
  rw [parseCmd_nil (by decide) (holds_nil.2 rfl)] at hparse
  obtain rfl := Option.some.inj hparse
  exact (hto.name rfl).1 rfl

end OscKernel.Shell
