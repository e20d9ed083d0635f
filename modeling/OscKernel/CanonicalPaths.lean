import OscKernel.LexicalPaths
import OscKernel.WalkInverse

/-!
# Canonical paths

What an absolute path names can be worked out from its text: `.` and `..` may be taken out of it, whatever
is mounted where. The path that is left is the only one of its kind to its vnode, so two paths name the same
vnode exactly if the same path is left of them.
-/

namespace OscKernel.Vfs

open LexicalPaths

variable {st : State} {s : Sys} {T : Set ℕ} {cwd v w t u : ℕ} {p q : List UInt8}
  {names : List (List UInt8)}

/-- The move of `vfs_lookup` for a component. -/
def move (name : List UInt8) : Move (List UInt8) :=
  if name = dotName then .stay else if name = dotDotName then .up else .down name

def moveStep (st : State) (current : ℕ) : Move (List UInt8) → Except ℤ ℕ
  | .stay => .ok current
  | .up => walkUp st current
  | .down name => walkDown st current name

def canonical (path : List UInt8) : List (List UInt8) := normal ((components path).map move)

def absolutePath (names : List (List UInt8)) : List UInt8 :=
  if names = [] then [slash] else names.flatMap (slash :: ·)

def climb (path : List UInt8) (k : ℕ) : List UInt8 :=
  path ++ (List.replicate k (slash :: dotDotName)).flatten

theorem walkComponent_move (name : List UInt8) :
    walkComponent st v name = moveStep st v (move name) := by
  rw [walkComponent, move]
  split_ifs <;> rfl

theorem resolve_moves (names : List (List UInt8)) :
    resolve st v names = walk (moveStep st) v (names.map move) := by
  rw [resolve, walk, List.foldlM_map]
  congr 1
  funext a name
  exact walkComponent_move name

theorem resolvePath_moves (habs : isAbsolute p) :
    resolvePath st cwd p = walk (moveStep st) st.root ((components p).map move) := by
  rw [resolvePath_absolute habs, resolve_moves]

theorem isAbsolute_absolutePath (names : List (List UInt8)) : isAbsolute (absolutePath names) := by
  rw [absolutePath]
  cases names with
  | nil => rfl
  | cons n names => rfl

theorem components_slash (q : List UInt8) : components (slash :: q) = components q :=
  CStrings.tokens_sep

theorem components_flatMap (hplain : ∀ n ∈ names, Plain n) :
    components (names.flatMap (slash :: ·)) = names := by
  induction names with
  | nil => rfl
  | cons n names ih =>
      have hn := hplain n (List.mem_cons_self ..)
      have hrest := ih fun m hm => hplain m (List.mem_cons_of_mem _ hm)
      rw [List.flatMap_cons, List.cons_append, components_slash]
      cases names with
      | nil => rw [List.flatMap_nil, List.append_nil, hn.components]
      | cons m names =>
          rw [List.flatMap_cons, List.cons_append, components_append, hn.components]
          rw [List.flatMap_cons, List.cons_append, components_slash] at hrest
          rw [hrest]
          rfl

theorem components_absolutePath (hplain : ∀ n ∈ names, Plain n) :
    components (absolutePath names) = names := by
  rw [absolutePath]
  split_ifs with hnil
  · rw [hnil]
    rfl
  · exact components_flatMap hplain

/-- What is left of a path are components of it. -/
theorem mem_canonical {n : List UInt8} (h : n ∈ canonical p) :
    n ∈ components p ∧ n ≠ dotName ∧ n ≠ dotDotName := by
  obtain ⟨name, hname, hmove⟩ := List.mem_map.1 (mem_normal h)
  rw [move] at hmove
  split_ifs at hmove with hdot hdotdot
  obtain rfl := Move.down.inj hmove
  exact ⟨hname, hdot, hdotdot⟩

theorem canonical_plain (hp : (0 : UInt8) ∉ p) : ∀ n ∈ canonical p, Plain n := by
  intro n hn
  obtain ⟨hmem, hdot, hdotdot⟩ := mem_canonical hn
  obtain ⟨hne, hslash, hsub⟩ := CStrings.mem_tokens hmem
  exact ⟨hne, hslash, fun h0 => hp (hsub 0 h0), hdot, hdotdot⟩

theorem nul_absolutePath (hplain : ∀ n ∈ names, Plain n) : (0 : UInt8) ∉ absolutePath names := by
  rw [absolutePath]
  split_ifs
  · decide
  · intro h0
    obtain ⟨n, hn, h0⟩ := List.mem_flatMap.1 h0
    rcases List.mem_cons.1 h0 with h0 | h0
    · exact absurd h0 (by decide)
    · exact (hplain n hn).nul h0

theorem map_move (hplain : ∀ n ∈ names, Plain n) : names.map move = downs names := by
  refine List.map_congr_left ?_
  intro n hn
  rw [move, if_neg (hplain n hn).notDot, if_neg (hplain n hn).notDotDot]

theorem findChild_name {n : Node} {name : List UInt8} (h : findChild st n name = some v) :
    (st.internal v).name = name := by
  have hname := List.find?_some h
  exact of_decide_eq_true hname

namespace Hierarchy

theorem cross_ne_root (h : Hierarchy st T) (ht : Tree st T) (hv : v ∈ T)
    (hfind : findChild st (st.internal v) p = some w) : cross st w ≠ st.root := by
  rw [cross]
  split_ifs with hm
  · exact (h.mountRoot w (ht.findChild_mem hv hfind) hm).1
  · exact (h.child_ne_root ht hv hfind).2

/-- The mount on a child of a vnode without a mount is its own. -/
theorem cross_parent (h : Hierarchy st T) (ht : Tree st T) (hv : v ∈ T) (hm : (st.vnodes v).mount = 0)
    (hfind : findChild st (st.internal v) p = some w) (hwm : (st.vnodes w).mount ≠ 0) :
    (st.vnodes (cross st w)).parent = w := by
  rw [cross, if_pos hwm]
  refine (h.heir w (ht.findChild_mem hv hfind) hwm).resolve_right ?_
  rw [(h.child_ne_root ht hv hfind).1, hm]
  exact fun heq => hwm heq.symm

/-- Two children of a vnode without a mount are not seen at one place. -/
theorem cross_inj (h : Hierarchy st T) (ht : Tree st T) (hv : v ∈ T) (hm : (st.vnodes v).mount = 0)
    (hw : findChild st (st.internal v) p = some w) (hu : findChild st (st.internal v) q = some u)
    (heq : cross st w = cross st u) : w = u := by
  have hself : ∀ {x}, (st.vnodes x).mount = 0 → cross st x = x := fun hx => if_neg (not_not.2 hx)
  -- The root of a mount is not a child: its parent has a mount, and `v` has none.
  have hmixed : ∀ {x y : ℕ} {a b : List UInt8}, findChild st (st.internal v) a = some x →
      findChild st (st.internal v) b = some y → (st.vnodes x).mount ≠ 0 → (st.vnodes y).mount = 0 →
      cross st x ≠ cross st y := by
    intro x y a b hx hy hxm hym hxy
    have hparent := h.cross_parent ht hv hm hx hxm
    rw [hxy, hself hym, (h.child_ne_root ht hv hy).1] at hparent
    exact hxm (hparent ▸ hm)
  by_cases hwm : (st.vnodes w).mount = 0
  · by_cases hum : (st.vnodes u).mount = 0
    · rwa [hself hwm, hself hum] at heq
    · exact absurd heq.symm (hmixed hu hw hum hwm)
  · by_cases hum : (st.vnodes u).mount = 0
    · exact absurd heq (hmixed hw hu hwm hum)
    · rw [← h.cross_parent ht hv hm hw hwm, heq, h.cross_parent ht hv hm hu hum]

/-- What is seen from the root is a tree whose branches have names. -/
theorem namedTree (h : Hierarchy st T) (ht : Tree st T) :
    NamedTree (moveStep st) st.root {v | Shown st v} where
  root_mem := Shown.root
  mem v hv m w hstep := by
    cases m with
    | stay =>
        rw [← Except.ok.inj hstep]
        exact hv
    | up => exact Shown.walkUp hv h ht hstep
    | down name => exact (Shown.walkDown hv h ht hstep).1
  stay v := rfl
  top := if_pos rfl
  up_down v hv name w hstep := by
    obtain ⟨hin, hm⟩ := Shown.uncovered hv h ht
    obtain ⟨c, hfind, rfl⟩ := walkDown_cases ht hin hstep
    have hself : cross st v = v := if_neg (not_not.2 hm)
    rw [hself] at hfind
    exact ⟨(Shown.walkDown hv h ht hstep).2, h.cross_ne_root ht hin hfind⟩
  name v hv name name' w hstep hstep' := by
    obtain ⟨hin, hm⟩ := Shown.uncovered hv h ht
    obtain ⟨c, hfind, hc⟩ := walkDown_cases ht hin hstep
    obtain ⟨c', hfind', hc'⟩ := walkDown_cases ht hin hstep'
    have hself : cross st v = v := if_neg (not_not.2 hm)
    rw [hself] at hfind hfind'
    have hsame := h.cross_inj ht hin hm hfind hfind' (hc.symm.trans hc')
    rw [← findChild_name hfind, ← findChild_name hfind', hsame]

end Hierarchy

theorem components_climb (p : List UInt8) (k : ℕ) :
    components (climb p k) = components p ++ List.replicate k dotDotName := by
  induction k with
  | zero => rw [climb, List.replicate_zero, List.flatten_nil, List.append_nil, List.replicate_zero,
      List.append_nil]
  | succ k ih =>
      have hstep : climb p (k + 1) = climb p k ++ slash :: dotDotName := by
        rw [climb, climb, List.replicate_succ', List.flatten_append, List.append_assoc]
        rfl
      rw [hstep, components_append, ih, components_dotDot, List.replicate_succ', List.append_assoc]

theorem canonical_climb (p : List UInt8) (k : ℕ) :
    canonical (climb p k) = (canonical p).take ((canonical p).length - k) := by
  rw [canonical, components_climb, List.map_append, List.map_replicate]
  exact normal_ups _ k

theorem nul_climb (hp : (0 : UInt8) ∉ p) (k : ℕ) : (0 : UInt8) ∉ climb p k := by
  intro h0
  rcases List.mem_append.1 h0 with h0 | h0
  · exact hp h0
  · obtain ⟨l, hl, h0⟩ := List.mem_flatten.1 h0
    rw [List.eq_of_mem_replicate hl] at h0
    exact absurd h0 (by decide)

theorem isAbsolute_climb (hp : isAbsolute p) (k : ℕ) : isAbsolute (climb p k) := by
  cases p with
  | nil => cases hp
  | cons c p => exact hp

/-- Where absolute paths lead: two that are found name the same vnode exactly if the same names are left of
them, what is left of a path leads where the path does, and `..` leads to the root after as many steps as
there are names left. -/
theorem same_place_iff (h : s.Reachable) {cwd cwd' : ℕ} (hp0 : (0 : UInt8) ∉ p) (hq0 : (0 : UInt8) ∉ q)
    (hp : isAbsolute p) (hq : isAbsolute q) (hv : LookupFinds s.st cwd p v)
    (hw : LookupFinds s.st cwd' q w) :
    (v = w ↔ canonical p = canonical q) ∧
    (CopyOk s.st (absolutePath (canonical p)) →
      LookupFinds s.st cwd' (absolutePath (canonical p)) v) ∧
    ∀ k, CopyOk s.st (climb p k) → ∃ x, LookupFinds s.st cwd (climb p k) x ∧
      (x = s.st.root ↔ (canonical p).length ≤ k) := by
  obtain ⟨T, hinv, hh, -⟩ := h.whole
  have htree := hh.namedTree hinv.tree
  have hwalk := ((lookupFinds_iff hp0).1 hv).2
  have hwalk' := ((lookupFinds_iff hq0).1 hw).2
  rw [resolvePath_moves hp] at hwalk
  rw [resolvePath_moves hq] at hwalk'
  have hplain := canonical_plain hp0
  refine ⟨htree.walk_same_iff hwalk hwalk', ?_, ?_⟩
  · intro hcopy
    refine (lookupFinds_iff (nul_absolutePath hplain)).2 ⟨hcopy, ?_⟩
    rw [resolvePath_moves (isAbsolute_absolutePath _), components_absolutePath hplain, map_move hplain]
    exact htree.walk_normal hwalk
  · intro k hcopy
    obtain ⟨x, hx⟩ := htree.walk_ups hwalk k
    have hmoves : (components (climb p k)).map move = (components p).map move ++ List.replicate k .up := by
      rw [components_climb, List.map_append, List.map_replicate]
      rfl
    rw [← hmoves] at hx
    have hroot : walk (moveStep s.st) s.st.root [] = .ok s.st.root := rfl
    refine ⟨x, (lookupFinds_iff (nul_climb hp0 k)).2 ⟨hcopy, ?_⟩, ?_⟩
    · rw [resolvePath_moves (isAbsolute_climb hp k)]
      exact hx
    · rw [htree.walk_same_iff hx hroot]
      change canonical (climb p k) = [] ↔ _
      rw [canonical_climb, List.take_eq_nil_iff, Nat.sub_eq_zero_iff_le]
      constructor
      · rintro (hle | hnil)
        · exact hle
        · rw [hnil]
          exact Nat.zero_le k
      · exact Or.inl

/-- The root of the mount on `/a` is not the root. -/
theorem same_place_iff_mount : (lookupPath Sys.covered.st 0 [47, 97]).2.2 ≠ Sys.covered.st.root := by
  have hroot : (lookupPath Sys.covered.st 0 [47]).2 = (0, Sys.covered.st.root) := by decide
  have hdir : (lookupPath Sys.covered.st 0 [47, 97]).2.1 = 0 := by decide
  have hsame := (same_place_iff Sys.covered_reachable (by decide) (by decide) (by decide) (by decide)
    (Prod.ext hdir rfl : LookupFinds Sys.covered.st 0 [47, 97] _) hroot).1
  exact fun heq => absurd (hsame.1 heq) (by decide)

end OscKernel.Vfs
