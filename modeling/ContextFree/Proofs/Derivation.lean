import ContextFree.Language.Derivation

/-!
# The algebra of derivations

A body derives the concatenations of what its symbols derive. Two sets of productions
are compared by translating derivations: `Yields.translate` replaces every nonterminal
by a body of the other set, and `Yields.confine` keeps a derivation inside a set of
nonterminals that its productions do not leave.
-/

namespace ContextFree

/-- Replace every nonterminal of a body by a body. -/
def substitute (σ : NonterminalId → Body) (body : Body) : Body :=
  body.flatMap fun s =>
    match s with
    | .terminal t => [.terminal t]
    | .nonterminal n => σ n

section Substitute

variable {σ : NonterminalId → Body}

@[simp]
theorem substitute_nil : substitute σ [] = [] := rfl

@[simp]
theorem substitute_terminal (t : TerminalId) (body : Body) :
    substitute σ (.terminal t :: body) = .terminal t :: substitute σ body := rfl

@[simp]
theorem substitute_nonterminal (n : NonterminalId) (body : Body) :
    substitute σ (.nonterminal n :: body) = σ n ++ substitute σ body := rfl

/-- A body is unchanged when each of its nonterminals stands for itself. -/
theorem substitute_eq_self {body : Body}
    (fixed : ∀ n, .nonterminal n ∈ body → σ n = [.nonterminal n]) :
    substitute σ body = body := by
  induction body with
  | nil => rfl
  | cons s rest ih =>
      have tail := ih fun n hn => fixed n (List.mem_cons_of_mem _ hn)
      cases s with
      | terminal t => rw [substitute_terminal, tail]
      | nonterminal n =>
          rw [substitute_nonterminal, tail, fixed n List.mem_cons_self]
          rfl

theorem substitute_append (a b : Body) :
    substitute σ (a ++ b) = substitute σ a ++ substitute σ b := List.flatMap_append

theorem mem_substitute {body : Body} {n : NonterminalId} :
    .nonterminal n ∈ substitute σ body ↔
      ∃ m, .nonterminal m ∈ body ∧ .nonterminal n ∈ σ m := by
  rw [substitute, List.mem_flatMap]
  constructor
  · rintro ⟨s, hs, hn⟩
    cases s with
    | terminal t => cases List.mem_singleton.mp hn
    | nonterminal m => exact ⟨m, hs, hn⟩
  · rintro ⟨m, hm, hn⟩
    exact ⟨_, hm, hn⟩

/-- The nonterminals numbered from `next` stand for the given bodies, all others for
themselves. -/
def abbreviation (next : Nat) (bodies : List Body) (n : NonterminalId) : Body :=
  if n.index < next then [.nonterminal n]
  else bodies.getD (n.index - next) [.nonterminal n]

variable {next : Nat} {bodies : List Body}

theorem abbreviation_of_lt {n : NonterminalId} (h : n.index < next) :
    abbreviation next bodies n = [.nonterminal n] := if_pos h

theorem abbreviation_of_getElem? {k : Nat} {body : Body} (h : bodies[k]? = some body) :
    abbreviation next bodies ⟨next + k⟩ = body := by
  have outside : ¬ next + k < next := by omega
  rw [abbreviation, if_neg outside, Nat.add_sub_cancel_left, List.getD_eq_getElem?_getD, h]
  rfl

theorem abbreviation_cases (next : Nat) (bodies : List Body) (n : NonterminalId) :
    abbreviation next bodies n = [.nonterminal n] ∨
      ∃ k body, bodies[k]? = some body ∧ n = ⟨next + k⟩ := by
  by_cases small : n.index < next
  · exact Or.inl (abbreviation_of_lt small)
  · cases found : bodies[n.index - next]? with
    | none =>
        left
        rw [abbreviation, if_neg small, List.getD_eq_getElem?_getD, found]
        rfl
    | some body =>
        right
        refine ⟨n.index - next, body, found, Id.ext ?_⟩
        change n.index = next + (n.index - next)
        omega

end Substitute

namespace Yields

variable {P Q : Production → Prop} {a b : Body} {u v w : Word}

@[simp]
theorem nil_iff : Yields P [] w ↔ w = [] := by
  constructor
  · intro h
    cases h
    rfl
  · rintro rfl
    exact .nil

theorem cons_terminal_iff {t : TerminalId} :
    Yields P (.terminal t :: b) w ↔ ∃ v, w = t :: v ∧ Yields P b v := by
  constructor
  · intro h
    cases h with
    | terminal rest => exact ⟨_, rfl, rest⟩
  · rintro ⟨v, rfl, rest⟩
    exact .terminal rest

theorem cons_nonterminal_iff {n : NonterminalId} :
    Yields P (.nonterminal n :: b) w ↔
      ∃ body u v, w = u ++ v ∧ P ⟨n, body⟩ ∧ Yields P body u ∧ Yields P b v := by
  constructor
  · intro h
    cases h with
    | nonterminal rule first rest => exact ⟨_, _, _, rfl, rule, first, rest⟩
  · rintro ⟨body, u, v, rfl, rule, first, rest⟩
    exact .nonterminal rule first rest

theorem singleton_terminal_iff {t : TerminalId} : Yields P [.terminal t] w ↔ w = [t] := by
  simp [cons_terminal_iff]

/-- A body without nonterminals derives the word that it is. -/
theorem map_terminal_iff : Yields P (u.map .terminal) w ↔ w = u := by
  induction u generalizing w with
  | nil => exact nil_iff
  | cons t rest ih =>
      rw [List.map_cons, cons_terminal_iff]
      simp [ih]

/-- A nonterminal derives what one of its bodies derives. -/
theorem singleton_iff {n : NonterminalId} :
    Yields P [.nonterminal n] w ↔ ∃ body, P ⟨n, body⟩ ∧ Yields P body w := by
  rw [cons_nonterminal_iff]
  constructor
  · rintro ⟨body, u, v, rfl, rule, first, rest⟩
    rw [nil_iff.mp rest, List.append_nil]
    exact ⟨body, rule, first⟩
  · rintro ⟨body, rule, first⟩
    exact ⟨body, w, [], (List.append_nil w).symm, rule, first, .nil⟩

theorem append (first : Yields P a u) (second : Yields P b v) : Yields P (a ++ b) (u ++ v) := by
  induction first with
  | nil => exact second
  | terminal _ ih => exact .terminal ih
  | nonterminal rule sub _ _ ih =>
      rw [List.cons_append, List.append_assoc]
      exact .nonterminal rule sub ih

/-- A word derived by two bodies in a row splits between them. -/
theorem append_iff :
    Yields P (a ++ b) w ↔ ∃ u v, w = u ++ v ∧ Yields P a u ∧ Yields P b v := by
  constructor
  · intro h
    induction a generalizing w with
    | nil => exact ⟨[], w, rfl, .nil, h⟩
    | cons s rest ih =>
        cases s with
        | terminal t =>
            obtain ⟨x, rfl, hx⟩ := cons_terminal_iff.mp h
            obtain ⟨u, v, rfl, hu, hv⟩ := ih hx
            exact ⟨t :: u, v, rfl, .terminal hu, hv⟩
        | nonterminal n =>
            obtain ⟨body, x, y, rfl, rule, hx, hy⟩ := cons_nonterminal_iff.mp h
            obtain ⟨u, v, rfl, hu, hv⟩ := ih hy
            exact ⟨x ++ u, v, (List.append_assoc x u v).symm, .nonterminal rule hx hu, hv⟩
  · rintro ⟨u, v, rfl, hu, hv⟩
    exact hu.append hv

theorem cons_iff {s : Symbol} :
    Yields P (s :: b) w ↔ ∃ u v, w = u ++ v ∧ Yields P [s] u ∧ Yields P b v :=
  append_iff (a := [s])

/-- Each symbol of a body that derives a word derives a word. -/
theorem exists_of_mem (h : Yields P b w) {s : Symbol} (hs : s ∈ b) : ∃ u, Yields P [s] u := by
  obtain ⟨pre, post, rfl⟩ := List.append_of_mem hs
  obtain ⟨_, x, rfl, _, hx⟩ := append_iff.mp h
  obtain ⟨u, _, rfl, hu, _⟩ := cons_iff.mp hx
  exact ⟨u, hu⟩

/-- A body whose symbols all derive a word derives a word. -/
theorem exists_of_forall (h : ∀ s ∈ b, ∃ u, Yields P [s] u) : ∃ w, Yields P b w := by
  induction b with
  | nil => exact ⟨[], .nil⟩
  | cons s rest ih =>
      obtain ⟨u, hu⟩ := h s List.mem_cons_self
      obtain ⟨v, hv⟩ := ih fun x hx => h x (List.mem_cons_of_mem _ hx)
      exact ⟨u ++ v, cons_iff.mpr ⟨u, v, rfl, hu, hv⟩⟩

/-- A body whose symbols all derive the empty word derives the empty word. -/
theorem nil_of_forall (h : ∀ s ∈ b, Yields P [s] []) : Yields P b [] := by
  induction b with
  | nil => exact .nil
  | cons s rest ih =>
      have tail := ih fun x hx => h x (List.mem_cons_of_mem _ hx)
      exact cons_iff.mpr ⟨[], [], rfl, h s List.mem_cons_self, tail⟩

/-- If every production of `P` holds of the bodies that stand for the nonterminals in
`Q`, then derivations by `P` become derivations by `Q`. -/
theorem translate (σ : NonterminalId → Body)
    (rules : ∀ n body w, P ⟨n, body⟩ → Yields Q (substitute σ body) w → Yields Q (σ n) w)
    (h : Yields P b w) : Yields Q (substitute σ b) w := by
  induction h with
  | nil => exact .nil
  | terminal _ ih => exact .terminal ih
  | nonterminal rule _ _ first rest =>
      rw [substitute_nonterminal]
      exact (rules _ _ _ rule first).append rest

/-- If `Q` lets every nonterminal derive what its bodies in `P` derive, then `Q` derives
all that `P` derives. -/
theorem simulate
    (rules : ∀ n body w, P ⟨n, body⟩ → Yields Q body w → Yields Q [.nonterminal n] w)
    (h : Yields P b w) : Yields Q b w := by
  have same (body : Body) : substitute (fun n => [.nonterminal n]) body = body :=
    substitute_eq_self fun _ _ => rfl
  rw [← same b]
  refine h.translate _ fun n body w rule hw => rules n body w rule ?_
  rwa [same] at hw

theorem mono (sub : ∀ p, P p → Q p) (h : Yields P b w) : Yields Q b w :=
  h.simulate fun n body _ rule hw => singleton_iff.mpr ⟨body, sub ⟨n, body⟩ rule, hw⟩

/-- A derivation that starts in a set of nonterminals and uses only productions of `Q`
that stay in the set is a derivation by `Q`. -/
theorem confine (K : NonterminalId → Prop)
    (rules : ∀ n body w, K n → P ⟨n, body⟩ → Yields P body w →
      Q ⟨n, body⟩ ∧ ∀ m, .nonterminal m ∈ body → K m)
    (hb : ∀ m, .nonterminal m ∈ b → K m) (h : Yields P b w) : Yields Q b w := by
  induction h with
  | nil => exact .nil
  | terminal _ ih => exact .terminal (ih fun m hm => hb m (List.mem_cons_of_mem _ hm))
  | nonterminal rule sub _ first rest =>
      obtain ⟨kept, inside⟩ := rules _ _ _ (hb _ List.mem_cons_self) rule sub
      exact .nonterminal kept (first inside) (rest fun m hm => hb m (List.mem_cons_of_mem _ hm))

/-- A body derives what it stands for if each of its nonterminals does. -/
theorem collapse (σ : NonterminalId → Body)
    (folds : ∀ n w, Yields P (σ n) w → Yields P [.nonterminal n] w)
    (h : Yields P (substitute σ b) w) : Yields P b w := by
  induction b generalizing w with
  | nil => exact h
  | cons s rest ih =>
      cases s with
      | terminal t =>
          rw [substitute_terminal] at h
          obtain ⟨v, rfl, hv⟩ := cons_terminal_iff.mp h
          exact .terminal (ih hv)
      | nonterminal n =>
          rw [substitute_nonterminal] at h
          obtain ⟨u, v, rfl, hu, hv⟩ := append_iff.mp h
          exact cons_iff.mpr ⟨u, v, rfl, folds n u hu, ih hv⟩

/-- The nonterminals of `Q` abbreviate bodies over `P`: each production of `Q` either
unfolds an abbreviation or is, unfolded, a production of `P`, and `Q` can fold up again
whatever `P` derives. Then bodies over `Q` derive what they stand for. -/
theorem abbreviates_iff (σ : NonterminalId → Body)
    (unfolds : ∀ q, Q q → σ q.head = substitute σ q.body ∨
      σ q.head = [.nonterminal q.head] ∧ P ⟨q.head, substitute σ q.body⟩)
    (rules : ∀ n body w, P ⟨n, body⟩ → Yields Q body w → Yields Q [.nonterminal n] w)
    (folds : ∀ n w, Yields Q (σ n) w → Yields Q [.nonterminal n] w) :
    Yields Q b w ↔ Yields P (substitute σ b) w := by
  constructor
  · apply translate
    intro n body w rule hw
    rcases unfolds ⟨n, body⟩ rule with same | ⟨self, kept⟩
    · rwa [same]
    · rw [self]
      exact singleton_iff.mpr ⟨_, kept, hw⟩
  · intro h
    exact (h.simulate rules).collapse σ folds

/-- Without empty bodies no word is shorter than the body that derives it. -/
theorem length_le (nonempty : ∀ p, P p → p.body ≠ []) (h : Yields P b w) :
    b.length ≤ w.length := by
  induction h with
  | nil => exact Nat.le_refl 0
  | terminal _ ih => exact Nat.succ_le_succ ih
  | @nonterminal n body rest u v rule _ _ first ih =>
      have long : 0 < body.length := List.length_pos_iff.mpr (nonempty _ rule)
      simp only [List.length_cons, List.length_append]
      omega

end Yields

namespace Grammar

theorem derives_iff {g : Grammar} {n : NonterminalId} {w : Word} :
    g.Derives n w ↔ ∃ body, ⟨n, body⟩ ∈ g.productions ∧ Yields (· ∈ g.productions) body w :=
  Yields.singleton_iff

end Grammar

end ContextFree
