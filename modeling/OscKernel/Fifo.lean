import Mathlib.Data.List.Nodup
import Mathlib.Data.Set.Insert
import OscKernel.Runs

/-!
# Waiting in line

A machine that runs one client and keeps the others in a line. The client at the head of the line is
selected, and the one that is left goes to the end of the line or leaves. Clients enter at the end, and
may be taken out of the middle. A client that is left in the line when it is entered directly stays there.

A client that waits is passed over by each other client at most once.
-/

namespace Fifo

open Runs

variable {α : Type*} {l l' : List α} {a b c n : α}

def Ahead (l : List α) (a b : α) : Prop := ∃ l₁ l₂, l = l₁ ++ a :: l₂ ∧ b ∉ l₁

theorem Ahead.mem (h : Ahead l a b) : a ∈ l := by
  obtain ⟨l₁, l₂, rfl, -⟩ := h
  simp

theorem Ahead.of_not_mem (ha : a ∈ l) (hb : b ∉ l) : Ahead l a b := by
  obtain ⟨l₁, l₂, rfl⟩ := List.append_of_mem ha
  exact ⟨l₁, l₂, rfl, fun hmem => hb (List.mem_append_left _ hmem)⟩

theorem Ahead.append (h : Ahead l a b) (l' : List α) : Ahead (l ++ l') a b := by
  obtain ⟨l₁, l₂, rfl, hb⟩ := h
  refine ⟨l₁, l₂ ++ l', ?_, hb⟩
  rw [List.append_assoc, List.cons_append]

theorem Ahead.tail (h : Ahead (n :: l) a b) (hn : n ≠ a) : Ahead l a b := by
  obtain ⟨l₁, l₂, heq, hb⟩ := h
  cases l₁ with
  | nil => exact absurd (List.cons.inj heq).1 hn
  | cons x l₁ => exact ⟨l₁, l₂, (List.cons.inj heq).2, fun hmem => hb (List.mem_cons_of_mem _ hmem)⟩

/-- The head of the line is not the one behind. -/
theorem Ahead.head (h : Ahead (n :: l) a b) (hn : n ≠ a) : n ≠ b := by
  obtain ⟨l₁, l₂, heq, hb⟩ := h
  cases l₁ with
  | nil => exact absurd (List.cons.inj heq).1 hn
  | cons x l₁ =>
      rw [(List.cons.inj heq).1]
      exact fun hx => hb (hx ▸ List.mem_cons_self)

theorem Ahead.erase [DecidableEq α] (h : Ahead l a b) (hc : c ≠ a) : Ahead (l.erase c) a b := by
  obtain ⟨l₁, l₂, rfl, hb⟩ := h
  by_cases hmem : c ∈ l₁
  · rw [List.erase_append_left _ hmem]
    exact ⟨l₁.erase c, l₂, rfl, fun h => hb (List.mem_of_mem_erase h)⟩
  · rw [List.erase_append_right _ hmem, List.erase_cons_tail (by simpa using hc.symm)]
    exact ⟨l₁, l₂.erase c, rfl, hb⟩

/-- The head of the line that is not `a` is the first one in front of it. -/
theorem head_behind {front l rest : List α} (heq : front ++ a :: l = n :: rest) (hn : n ≠ a) :
    ∃ front', front = n :: front' ∧ rest = front' ++ a :: l := by
  cases front with
  | nil => exact absurd (List.cons.inj heq).1.symm hn
  | cons x front =>
      obtain ⟨rfl, rfl⟩ := List.cons.inj heq
      exact ⟨front, rfl, rfl⟩

/-- `returns` says that the running client is put back when it is left, and `known` are the clients that
there have been. -/
structure Machine (α : Type*) where
  line : List α
  running : α
  returns : Bool
  known : Set α

/-- The client that a move takes out, and the one that it selects. -/
structure Event (α : Type*) where
  killed : Option α
  selected : Option α

def back (returns : Bool) (a : α) : List α := if returns then [a] else []

theorem mem_back {returns : Bool} : b ∈ back returns a ↔ returns = true ∧ b = a := by
  cases returns <;> simp [back]

structure Machine.Ok (m : Machine α) : Prop where
  nodup : m.line.Nodup
  known : ∀ a ∈ m.line, a ∈ m.known
  running : m.running ∈ m.known
  returns : m.returns = true → m.running ∉ m.line

/-- A client that enters is behind all others. -/
theorem Machine.Ok.line_append {m : Machine α} (h : m.Ok) (ha : a ∉ m.known) :
    (m.line ++ [a]).Nodup ∧ ∀ b ∈ m.line ++ [a], b ∈ insert a m.known := by
  constructor
  · apply List.nodup_append.2
    refine ⟨h.nodup, List.nodup_singleton a, fun x hx y hy heq => ?_⟩
    rw [List.mem_singleton.1 hy] at heq
    exact ha (heq ▸ h.known x hx)
  · intro x hx
    rcases List.mem_append.1 hx with hx | hx
    · exact Or.inr (h.known x hx)
    · exact Or.inl (List.mem_singleton.1 hx)

variable [DecidableEq α]

inductive Move (m : Machine α) : Event α → Machine α → Prop
  | stay : Move m ⟨none, none⟩ m
  | enter (a : α) : a ∉ m.known →
      Move m ⟨none, none⟩ { m with line := m.line ++ [a], known := insert a m.known }
  | jump (a : α) : a ∉ m.known →
      Move m ⟨none, none⟩ ⟨m.line ++ [a], a, false, insert a m.known⟩
  | kill (a : α) : a ≠ m.running → Move m ⟨some a, none⟩ { m with line := m.line.erase a }
  | select (n : α) (rest : List α) : m.line = n :: rest → n ≠ m.running →
      Move m ⟨none, some n⟩ ⟨rest ++ back m.returns m.running, n, true, m.known⟩
  | leave (k : Option α) (n : α) (rest : List α) : (∀ a, k = some a → a = m.running) →
      m.line.erase m.running = n :: rest → Move m ⟨k, some n⟩ ⟨rest, n, true, m.known⟩
  | leaveLast (k : Option α) : (∀ a, k = some a → a = m.running) → m.line.erase m.running = [] →
      Move m ⟨k, none⟩ ⟨[], m.running, false, m.known⟩

variable {m m' : Machine α} {e : Event α} {es : List (Event α)}

theorem Machine.Ok.leave {rest : List α} (h : m.Ok) (hline : m.line.erase m.running = n :: rest) :
    n ∈ m.line ∧ n ≠ m.running ∧ n ∉ rest ∧ rest.Nodup ∧ ∀ a ∈ rest, a ∈ m.line := by
  have hnodup := h.nodup.erase m.running
  have hsub : ∀ a ∈ n :: rest, a ∈ m.line := fun a ha => List.mem_of_mem_erase (hline ▸ ha)
  have hne : n ≠ m.running := by
    intro hn
    have hmem : m.running ∈ m.line.erase m.running := by
      rw [hline, ← hn]
      exact List.mem_cons_self
    exact h.nodup.not_mem_erase hmem
  rw [hline, List.nodup_cons] at hnodup
  exact ⟨hsub n List.mem_cons_self, hne, hnodup.1, hnodup.2, fun a ha => hsub a (List.mem_cons_of_mem _ ha)⟩

theorem Move.ok (hm : Move m e m') (h : m.Ok) : m'.Ok := by
  cases hm with
  | stay => exact h
  | enter a ha =>
      obtain ⟨hnodup, hknown⟩ := h.line_append ha
      refine ⟨hnodup, hknown, Or.inr h.running, fun hr => ?_⟩
      rw [List.mem_append, List.mem_singleton, not_or]
      exact ⟨h.returns hr, fun heq => ha (heq ▸ h.running)⟩
  | jump a ha =>
      obtain ⟨hnodup, hknown⟩ := h.line_append ha
      exact ⟨hnodup, hknown, Or.inl rfl, fun hr => by cases hr⟩
  | kill a ha =>
      exact ⟨h.nodup.erase a, fun x hx => h.known x (List.mem_of_mem_erase hx), h.running,
        fun hr hmem => h.returns hr (List.mem_of_mem_erase hmem)⟩
  | select n rest hline hn =>
      have hmem : ∀ a ∈ n :: rest, a ∈ m.known := fun a ha => h.known a (hline ▸ ha)
      have hnodup := h.nodup
      rw [hline, List.nodup_cons] at hnodup
      refine ⟨?_, ?_, hmem n List.mem_cons_self, fun _ => ?_⟩
      · refine List.nodup_append.2 ⟨hnodup.2, ?_, ?_⟩
        · rw [back]
          split_ifs
          · exact List.nodup_singleton _
          · exact List.nodup_nil
        · rintro x hx y hy rfl
          obtain ⟨hr, rfl⟩ := mem_back.1 hy
          exact h.returns hr (hline ▸ List.mem_cons_of_mem _ hx)
      · intro x hx
        rcases List.mem_append.1 hx with hx | hx
        · exact hmem x (List.mem_cons_of_mem _ hx)
        · rw [(mem_back.1 hx).2]
          exact h.running
      · rw [List.mem_append, not_or]
        exact ⟨hnodup.1, fun hx => hn (mem_back.1 hx).2⟩
  | leave k n rest hk hline =>
      obtain ⟨hn, -, hnr, hnodup, hrest⟩ := h.leave hline
      exact ⟨hnodup, fun x hx => h.known x (hrest x hx), h.known n hn, fun _ => hnr⟩
  | leaveLast k hk hline =>
      exact ⟨List.nodup_nil, fun x hx => absurd hx List.not_mem_nil, h.running, fun hr => by cases hr⟩

def Waits (m : Machine α) (a b : α) : Prop := m.running ≠ a ∧ Ahead m.line a b

def Lost (m : Machine α) (a : α) : Prop :=
  a ∈ m.known ∧ a ∉ m.line ∧ (m.running = a → m.returns = false)

def Entered (m : Machine α) (a : α) : Prop := a ∈ m.known ∧ (m.running = a → a ∉ m.line)

/-- A client that waits keeps its place until it is selected or taken out, and nobody behind it is selected. -/
theorem Waits.move (h : Waits m a b) (hok : m.Ok) (hm : Move m e m') (hkill : e.killed ≠ some a)
    (hselect : e.selected ≠ some a) : Waits m' a b ∧ e.selected ≠ some b := by
  obtain ⟨hrun, hahead⟩ := h
  have hknown : a ∈ m.known := hok.known a hahead.mem
  cases hm with
  | stay => exact ⟨⟨hrun, hahead⟩, by simp⟩
  | enter c hc => exact ⟨⟨hrun, hahead.append [c]⟩, by simp⟩
  | jump c hc =>
      have hne : c ≠ a := fun heq => hc (heq ▸ hknown)
      exact ⟨⟨hne, hahead.append [c]⟩, by simp⟩
  | kill c hc => exact ⟨⟨hrun, hahead.erase fun heq => hkill (congrArg some heq)⟩, by simp⟩
  | select n rest hline hn =>
      have hna : n ≠ a := fun heq => hselect (congrArg some heq)
      rw [hline] at hahead
      exact ⟨⟨hna, (hahead.tail hna).append _⟩, fun heq => hahead.head hna (Option.some.inj heq)⟩
  | leave k n rest hk hline =>
      have hna : n ≠ a := fun heq => hselect (congrArg some heq)
      have hleft := hahead.erase hrun
      rw [hline] at hleft
      exact ⟨⟨hna, hleft.tail hna⟩, fun heq => hleft.head hna (Option.some.inj heq)⟩
  | leaveLast k hk hline =>
      have hleft := (hahead.erase hrun).mem
      rw [hline] at hleft
      exact absurd hleft List.not_mem_nil

theorem Lost.move (h : Lost m a) (hm : Move m e m') : Lost m' a ∧ e.selected ≠ some a := by
  obtain ⟨hknown, hline, hreturns⟩ := h
  cases hm with
  | stay => exact ⟨⟨hknown, hline, hreturns⟩, by simp⟩
  | enter c hc =>
      have hne : a ≠ c := fun heq => hc (heq ▸ hknown)
      exact ⟨⟨Or.inr hknown, by simp [hline, hne], hreturns⟩, by simp⟩
  | jump c hc =>
      have hne : a ≠ c := fun heq => hc (heq ▸ hknown)
      exact ⟨⟨Or.inr hknown, by simp [hline, hne], fun _ => rfl⟩, by simp⟩
  | kill c hc => exact ⟨⟨hknown, fun hmem => hline (List.mem_of_mem_erase hmem), hreturns⟩, by simp⟩
  | select n rest hsplit hn =>
      rw [hsplit, List.mem_cons, not_or] at hline
      refine ⟨⟨hknown, ?_, fun heq => absurd heq.symm hline.1⟩, fun heq => hline.1 (Option.some.inj heq).symm⟩
      rw [List.mem_append, mem_back, not_or]
      refine ⟨hline.2, fun hback => ?_⟩
      rw [hreturns hback.2.symm] at hback
      cases hback.1
  | leave k n rest hk hsplit =>
      have hleft : a ∉ n :: rest := fun hmem => hline (List.mem_of_mem_erase (hsplit ▸ hmem))
      rw [List.mem_cons, not_or] at hleft
      exact ⟨⟨hknown, hleft.2, fun heq => absurd heq.symm hleft.1⟩,
        fun heq => hleft.1 (Option.some.inj heq).symm⟩
  | leaveLast k hk hsplit => exact ⟨⟨hknown, List.not_mem_nil, fun _ => rfl⟩, by simp⟩

/-- A client that waits and is taken out is lost, and nobody is selected. -/
theorem Waits.lost (h : Waits m a b) (hok : m.Ok) (hm : Move m e m') (hkill : e.killed = some a) :
    Lost m' a ∧ e.selected = none := by
  obtain ⟨hrun, hahead⟩ := h
  have hknown : a ∈ m.known := hok.known a hahead.mem
  cases hm with
  | stay => cases hkill
  | enter c hc => cases hkill
  | jump c hc => cases hkill
  | kill c hc =>
      obtain rfl : c = a := Option.some.inj hkill
      exact ⟨⟨hknown, hok.nodup.not_mem_erase, fun heq => absurd heq hrun⟩, rfl⟩
  | select n rest hline hn => cases hkill
  | leave k n rest hk hline => exact absurd (hk a hkill).symm hrun
  | leaveLast k hk hline => exact absurd (hk a hkill).symm hrun

/-- The client that a move selects runs, and everyone else in the line is ahead of it. -/
theorem Move.selected (hm : Move m e m') (hok : m.Ok) (ha : e.selected = some a) :
    m'.running = a ∧ a ∉ m'.line := by
  cases hm with
  | stay => cases ha
  | enter c hc => cases ha
  | jump c hc => cases ha
  | kill c hc => cases ha
  | select n rest hline hn =>
      obtain rfl : n = a := Option.some.inj ha
      have hnodup := hok.nodup
      rw [hline, List.nodup_cons] at hnodup
      refine ⟨rfl, ?_⟩
      rw [List.mem_append, mem_back, not_or]
      exact ⟨hnodup.1, fun hback => hn hback.2⟩
  | leave k n rest hk hline =>
      obtain rfl : n = a := Option.some.inj ha
      exact ⟨rfl, (hok.leave hline).2.2.1⟩
  | leaveLast k hk hline => cases ha

theorem Move.known (hm : Move m e m') (ha : a ∈ m.known) : a ∈ m'.known := by
  cases hm with
  | enter c hc => exact Or.inr ha
  | jump c hc => exact Or.inr ha
  | _ => exact ha

theorem Entered.move (h : Entered m a) (hok : m.Ok) (hm : Move m e m') : Entered m' a := by
  refine ⟨hm.known h.1, ?_⟩
  obtain ⟨hknown, hrun⟩ := h
  cases hm with
  | stay => exact hrun
  | enter c hc =>
      intro heq
      have hne : a ≠ c := fun heq => hc (heq ▸ hknown)
      simp [hrun heq, hne]
  | jump c hc =>
      have hne : c ≠ a := fun heq => hc (heq ▸ hknown)
      exact fun heq => absurd heq hne
  | kill c hc => exact fun heq hmem => hrun heq (List.mem_of_mem_erase hmem)
  | select n rest hline hn =>
      rintro rfl
      exact ((Move.select n rest hline hn).selected hok rfl).2
  | leave k n rest hk hline =>
      rintro rfl
      exact (hok.leave hline).2.2.1
  | leaveLast k hk hline => exact fun _ => List.not_mem_nil

def killed (es : List (Event α)) : List α := es.filterMap Event.killed
def selected (es : List (Event α)) : List α := es.filterMap Event.selected

theorem ok_trace (hok : m.Ok) (htrace : Trace Move m es m') : m'.Ok := by
  induction htrace with
  | nil => exact hok
  | snoc _ hm ih => exact hm.ok ih

theorem entered_trace (h : Entered m a) (hok : m.Ok) (htrace : Trace Move m es m') : Entered m' a := by
  induction htrace with
  | nil => exact h
  | snoc htr hm ih => exact ih.move (ok_trace hok htr) hm

/-- The line while `a` is to be selected before `b`: `a` still waits, or it has been selected once and `b`
is now in front of it, or `b` does not come back. -/
def Bypass (es : List (Event α)) (m : Machine α) (a b : α) : Prop :=
  (a ∉ selected es ∧ Waits m a b) ∨ ((selected es).count a = 1 ∧ Waits m b a) ∨ Lost m b

theorem Bypass.snoc (h : Bypass es m a b) (hab : a ≠ b) (hb : b ∈ m.known) (hok : m.Ok)
    (hm : Move m e m') (hkill : e.killed ≠ some a) (hselect : e.selected ≠ some b) :
    Bypass (es ++ [e]) m' a b := by
  have hsel : selected (es ++ [e]) = selected es ++ e.selected.toList := by
    rw [selected, selected, List.filterMap_append]
    cases he : e.selected <;> simp [he]
  rcases h with ⟨hnot, hwait⟩ | ⟨hcount, hwait⟩ | hlost
  · by_cases ha : e.selected = some a
    · obtain ⟨hrun, hline⟩ := hm.selected hok ha
      have hcount : (selected (es ++ [e])).count a = 1 := by
        rw [hsel, ha, List.count_append, List.count_eq_zero.2 hnot]
        simp
      by_cases hmem : b ∈ m'.line
      · exact Or.inr (Or.inl ⟨hcount, fun heq => hab (hrun.symm.trans heq), Ahead.of_not_mem hmem hline⟩)
      · exact Or.inr (Or.inr ⟨hm.known hb, hmem, fun heq => absurd (hrun.symm.trans heq) hab⟩)
    · refine Or.inl ⟨?_, (hwait.move hok hm hkill ha).1⟩
      rw [hsel, List.mem_append, not_or]
      exact ⟨hnot, fun hmem => ha (Option.mem_toList.1 hmem)⟩
  · by_cases hk : e.killed = some b
    · exact Or.inr (Or.inr (hwait.lost hok hm hk).1)
    · obtain ⟨hwait', ha⟩ := hwait.move hok hm hk hselect
      refine Or.inr (Or.inl ⟨?_, hwait'⟩)
      rw [hsel, List.count_append, hcount, List.count_eq_zero.2 fun hmem => ha (Option.mem_toList.1 hmem)]
  · exact Or.inr (Or.inr (hlost.move hm).1)

/-- From the selection of `b` to the next one, a client in the line that is not taken out is selected
exactly once. -/
theorem selected_once (hok : m.Ok) (hrun : m.running = b) (hb : b ∉ m.line) (ha : a ∈ m.line)
    (htrace : Trace Move m es m') (hkill : a ∉ killed es) (hselect : b ∉ selected es)
    {m'' : Machine α} (hm : Move m' e m'') (he : e.selected = some b) :
    (selected es).count a = 1 := by
  have hab : a ≠ b := fun heq => hb (heq ▸ ha)
  have hbypass : b ∈ m'.known ∧ Bypass es m' a b := by
    clear hm
    induction htrace with
    | nil =>
        refine ⟨hrun ▸ hok.running, Or.inl ⟨List.not_mem_nil, fun heq => hab (heq.symm.trans hrun), ?_⟩⟩
        exact Ahead.of_not_mem ha hb
    | @snoc l i s' s'' htr hstep ih =>
        simp only [killed, selected, List.filterMap_append, List.mem_append, not_or] at hkill hselect
        obtain ⟨hknown, hby⟩ := ih hkill.1 hselect.1
        refine ⟨hstep.known hknown, hby.snoc hab hknown (ok_trace hok htr) hstep ?_ ?_⟩
        · exact fun h => hkill.2 (by simp [h])
        · exact fun h => hselect.2 (by simp [h])
  have hok' := ok_trace hok htrace
  rcases hbypass.2 with ⟨-, hwait⟩ | ⟨hcount, -⟩ | hlost
  · have hne : e.selected ≠ some a := by
      rw [he]
      exact fun heq => hab (Option.some.inj heq).symm
    have hk : e.killed ≠ some a := by
      intro hk
      rw [(hwait.lost hok' hm hk).2] at he
      cases he
    exact absurd he (hwait.move hok' hm hk hne).2
  · exact hcount
  · exact absurd he (hlost.move hm).2

structure Behind (m : Machine α) (front : List α) (a : α) : Prop where
  line : ∃ l, m.line = front ++ a :: l
  other : m.running ≠ a

/-- Taking out another client leaves `a` behind those of `front` that stay. -/
theorem erase_behind (front l : List α) (hc : c ≠ a) :
    ∃ front' l', (front ++ a :: l).erase c = front' ++ a :: l' ∧ front'.Sublist front := by
  by_cases hmem : c ∈ front
  · rw [List.erase_append_left _ hmem]
    exact ⟨front.erase c, l, rfl, List.erase_sublist⟩
  · rw [List.erase_append_right _ hmem, List.erase_cons_tail (by simpa using hc.symm)]
    exact ⟨front, l.erase c, rfl, List.Sublist.refl front⟩

theorem Behind.move {front : List α} (h : Behind m front a) (hok : m.Ok) (hm : Move m e m')
    (hkill : e.killed ≠ some a) (hselect : e.selected ≠ some a) :
    ∃ front', Behind m' front' a ∧ (e.selected.toList ++ front').Sublist front := by
  obtain ⟨⟨l, hline⟩, hother⟩ := h
  have hknown : a ∈ m.known := hok.known a (by rw [hline]; simp)
  cases hm with
  | stay => exact ⟨front, ⟨⟨l, hline⟩, hother⟩, List.Sublist.refl front⟩
  | enter c hc =>
      refine ⟨front, ⟨⟨l ++ [c], ?_⟩, hother⟩, List.Sublist.refl front⟩
      rw [hline, List.append_assoc, List.cons_append]
  | jump c hc =>
      have hne : c ≠ a := fun heq => hc (heq ▸ hknown)
      refine ⟨front, ⟨⟨l ++ [c], ?_⟩, hne⟩, List.Sublist.refl front⟩
      rw [hline, List.append_assoc, List.cons_append]
  | kill c hc =>
      have hca : c ≠ a := fun heq => hkill (congrArg some heq)
      obtain ⟨front', l', heq, hsub⟩ := erase_behind front l hca
      exact ⟨front', ⟨⟨l', by rw [hline, heq]⟩, hother⟩, hsub⟩
  | select n rest hsplit hn =>
      have hna : n ≠ a := fun heq => hselect (congrArg some heq)
      obtain ⟨front', rfl, rfl⟩ := head_behind (hline.symm.trans hsplit) hna
      refine ⟨front', ⟨⟨l ++ back m.returns m.running, ?_⟩, hna⟩, List.Sublist.refl _⟩
      rw [List.append_assoc, List.cons_append]
  | leave k n rest hk hsplit =>
      have hna : n ≠ a := fun heq => hselect (congrArg some heq)
      obtain ⟨front₁, l', heq, hsub⟩ := erase_behind front l hother
      rw [hline, heq] at hsplit
      obtain ⟨front', rfl, rfl⟩ := head_behind hsplit hna
      exact ⟨front', ⟨⟨l', rfl⟩, hna⟩, hsub⟩
  | leaveLast k hk hsplit =>
      obtain ⟨front', l', heq, -⟩ := erase_behind front l hother
      rw [hline, heq] at hsplit
      exact absurd hsplit (by simp)

/-- First come, first served: while `a` waits only clients in front of it are selected, in their order. -/
theorem Behind.trace {front : List α} (h : Behind m front a) (hok : m.Ok) (htrace : Trace Move m es m')
    (hkill : a ∉ killed es) (hselect : a ∉ selected es) :
    ∃ front', Behind m' front' a ∧ (selected es ++ front').Sublist front := by
  induction htrace with
  | nil => exact ⟨front, h, List.Sublist.refl front⟩
  | @snoc es e m₁ m₂ htr hm ih =>
      simp only [killed, selected, List.filterMap_append, List.mem_append, not_or] at hkill hselect
      obtain ⟨front₁, h₁, hsub₁⟩ := ih hkill.1 hselect.1
      have hk : e.killed ≠ some a := fun heq => hkill.2 (by simp [heq])
      have hs : e.selected ≠ some a := fun heq => hselect.2 (by simp [heq])
      obtain ⟨front', h', hsub⟩ := h₁.move (ok_trace hok htr) hm hk hs
      refine ⟨front', h', List.Sublist.trans ?_ hsub₁⟩
      have hlast : selected (es ++ [e]) = selected es ++ e.selected.toList := by
        rw [selected, selected, List.filterMap_append]
        cases he : e.selected <;> simp [he]
      rw [hlast, List.append_assoc]
      exact hsub.append_left (selected es)

/-- A client that has been selected is not in the line while it runs, ever after. -/
theorem entered_of_selected (hok : m.Ok) (htrace : Trace Move m es m') (ha : a ∈ selected es) :
    Entered m' a := by
  induction htrace with
  | nil => exact absurd ha List.not_mem_nil
  | @snoc es e m₁ m₂ htr hm ih =>
      have hok₁ := ok_trace hok htr
      rw [selected, List.filterMap_append, List.mem_append] at ha
      rcases ha with ha | ha
      · exact (ih ha).move hok₁ hm
      · obtain ⟨e', he', ha⟩ := List.mem_filterMap.1 ha
        rw [List.mem_singleton.1 he'] at ha
        obtain ⟨hrun, hline⟩ := hm.selected hok₁ ha
        exact ⟨hrun ▸ (hm.ok hok₁).running, fun _ => hline⟩

end Fifo
