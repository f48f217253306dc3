import ContextFree.Proofs.Renormalization
import Std.Data.String.ToNat

/-!
# Display names

Declared names are distinct and never begin with a dollar sign, and the text of an added
nonterminal tells its kind and its serial number. So a display name determines where a nonterminal
comes from, and it is never the name of a terminal.

It need not determine the nonterminal. Serial numbers start anew with every normalization, and a
start symbol that was added to keep the empty word stays when it is replaced by another one. Two
nonterminals then have the same name if both were the first to be added by their runs.

## Implementation notes

`Grammar.Crowned` describes the grammars between two runs that keep the empty word. Start symbols
of earlier runs occur in no body, so the next run removes all of them but the latest.
-/

namespace ContextFree

open NormalForm

section Text

/-- No declared name begins with a dollar sign. -/
theorem isName_dollar (rest : String) : isName ("$" ++ rest) = false := by
  simp [isName, String.toList_append]

namespace FreshKind

theorem letter_injective {a b : FreshKind} : a.letter = b.letter → a = b := by
  cases a <;> cases b <;> decide

/-- The text of an added nonterminal has two characters before its serial number. -/
theorem length_dollar_letter (kind : FreshKind) : ("$" ++ kind.letter).toList.length = 2 := by
  cases kind with
  | terminalProxy => rfl
  | chain => rfl
  | start => rfl

end FreshKind

namespace Origin

/-- A declared name is one that a definition accepts. -/
def Valid : Origin → Prop
  | declared name => isName name = true
  | fresh .. => True

/-- The text of an added nonterminal tells its kind and its serial number. -/
theorem text_fresh_injective {a b : FreshKind} {m n : Nat}
    (same : (fresh a m).text = (fresh b n).text) : a = b ∧ m = n := by
  have parts : ("$" ++ a.letter).toList ++ (toString m).toList =
      ("$" ++ b.letter).toList ++ (toString n).toList := by
    rw [← String.toList_append, ← String.toList_append]
    exact congrArg String.toList same
  have equal : ("$" ++ a.letter).toList.length = ("$" ++ b.letter).toList.length :=
    a.length_dollar_letter.trans b.length_dollar_letter.symm
  obtain ⟨front, back⟩ := List.append_inj parts equal
  constructor
  · apply FreshKind.letter_injective
    exact (String.append_right_inj "$").mp (String.toList_inj.mp front)
  · exact Nat.repr_injective (String.toList_inj.mp back)

/-- No declared name is the text of an added nonterminal. -/
theorem text_fresh_ne {name : String} (valid : isName name = true) (kind : FreshKind)
    (serial : Nat) : (fresh kind serial).text ≠ name := by
  rintro rfl
  rw [text, String.append_assoc, isName_dollar] at valid
  cases valid

/-- A display name tells where a nonterminal comes from. -/
theorem text_injective {a b : Origin} (ha : a.Valid) (hb : b.Valid) (same : a.text = b.text) :
    a = b := by
  cases a with
  | declared name =>
      cases b with
      | declared other => exact congrArg declared same
      | fresh kind serial => exact absurd same.symm (text_fresh_ne ha kind serial)
  | fresh kind serial =>
      cases b with
      | declared name => exact absurd same (text_fresh_ne hb kind serial)
      | fresh other number =>
          obtain ⟨rfl, rfl⟩ := text_fresh_injective same
          rfl

end Origin

end Text

namespace Grammar

variable {g h : Grammar} {policy : EmptyWord} {c : NormalForm} {serial : Nat}

section Titled

/-- All declared names are such as a definition accepts. -/
structure Titled (g : Grammar) : Prop where
  terminals_valid : ∀ t ∈ g.terminals, isName t.name = true
  origins_valid : ∀ n ∈ g.nonterminals, n.origin.Valid

/-- The origins of all nonterminals are distinct. -/
def OriginsApart (g : Grammar) : Prop := (g.nonterminals.map Nonterminal.origin).Nodup

/-- The display names are distinct exactly if the origins are. -/
theorem Titled.nodup_text_iff (titled : g.Titled) :
    (g.nonterminals.map Nonterminal.text).Nodup ↔ g.OriginsApart := by
  have texts : g.nonterminals.map Nonterminal.text =
      (g.nonterminals.map Nonterminal.origin).map Origin.text := by
    rw [List.map_map]
    rfl
  rw [texts]
  constructor
  · exact List.Nodup.of_map Origin.text
  · apply List.Nodup.map_on
    intro a ha b hb same
    obtain ⟨n, hn, rfl⟩ := List.mem_map.mp ha
    obtain ⟨m, hm, rfl⟩ := List.mem_map.mp hb
    exact Origin.text_injective (titled.origins_valid n hn) (titled.origins_valid m hm) same

/-- No nonterminal is displayed by the name of a terminal. -/
theorem Titled.text_ne_name (titled : g.Titled) (wellFormed : g.WellFormed) {n : Nonterminal}
    (hn : n ∈ g.nonterminals) {t : Terminal} (ht : t ∈ g.terminals) : n.text ≠ t.name := by
  rw [Nonterminal.text]
  cases origin : n.origin with
  | declared name =>
      rintro rfl
      have shared : t.name ∈ g.nonterminals.filterMap Nonterminal.declaredName? := by
        refine List.mem_filterMap.mpr ⟨n, hn, ?_⟩
        rw [Nonterminal.declaredName?, origin]
        rfl
      have apart := (List.nodup_append'.mp wellFormed.names_nodup).2.2
      exact apart (List.mem_map_of_mem ht) shared
  | fresh kind serial => exact Origin.text_fresh_ne (titled.terminals_valid t ht) kind serial

theorem Titled.paired (titled : g.Titled) (derivesEmpty : Bool) :
    (g.usefulPart.paired derivesEmpty).Titled where
  terminals_valid t ht := by
    rw [terminals_paired, terminals_usefulPart] at ht
    exact titled.terminals_valid t ht
  origins_valid n hn := by
    rw [nonterminals_paired, List.mem_append] at hn
    cases hn with
    | inl old => exact titled.origins_valid n (nonterminals_usefulPart_sublist.subset old)
    | inr new =>
        obtain ⟨i, kind, _, rfl⟩ := mem_freshNonterminals.mp new
        trivial

/-- Names stay valid through all runs. -/
theorem Titled.normalizeAll (titled : g.Titled) (obtained : Obtained (.grammar g))
    {policies : List EmptyWord} (ran : g.normalizeAll policies = .ok h) :
    h.Titled ∧ Obtained (.grammar h) := by
  induction policies generalizing g with
  | nil =>
      obtain rfl := normalizeAll_nil.mp ran
      exact ⟨titled, obtained⟩
  | cons policy rest ih =>
      obtain ⟨c, ok, ran⟩ := normalizeAll_cons.mp ran
      obtain ⟨rfl, _⟩ := obtained.eq_paired_of_normalize ok
      exact ih (titled.paired _) (obtained.normalize ok).release ran

end Titled

section FirstRun

/-- The nonterminals that one run adds have distinct serial numbers. -/
theorem nodup_origins_freshNonterminals {next : Nat} {kinds : List FreshKind} :
    ((freshNonterminals next kinds).map Nonterminal.origin).Nodup := by
  apply List.Nodup.map_on _ (List.Nodup.of_map _ nodup_ids_freshNonterminals)
  intro n hn m hm same
  obtain ⟨i, kind, _, rfl⟩ := mem_freshNonterminals.mp hn
  obtain ⟨j, other, _, rfl⟩ := mem_freshNonterminals.mp hm
  obtain ⟨rfl, number⟩ := Origin.fresh.inj same
  obtain rfl := Nat.succ.inj number
  rfl

/-- A grammar with declared nonterminals only, as loading gives it. -/
structure Pristine (g : Grammar) : Prop where
  obtained : Obtained (.grammar g)
  titled : g.Titled
  declared : ∀ n ∈ g.nonterminals, ∃ name, n.origin = .declared name

/-- Declared nonterminals have distinct names, hence distinct origins. -/
theorem Pristine.originsApart (pristine : g.Pristine) : g.OriginsApart := by
  have wellFormed : g.WellFormed := pristine.obtained.lawful
  have names := (List.nodup_append'.mp wellFormed.names_nodup).2.1
  have origins : (g.nonterminals.filterMap Nonterminal.declaredName?).map Origin.declared =
      g.nonterminals.map Nonterminal.origin := by
    rw [List.map_filterMap, ← List.filterMap_eq_map]
    apply List.filterMap_congr
    intro n hn
    obtain ⟨name, origin⟩ := pristine.declared n hn
    simp [Nonterminal.declaredName?, Origin.declaredName?, origin]
  rw [OriginsApart, ← origins]
  exact names.map fun _ _ same => Origin.declared.inj same

theorem Pristine.declared_of_mem_usefulPart (pristine : g.Pristine) {n : Nonterminal}
    (hn : n ∈ g.usefulPart.nonterminals) : ∃ name, n.origin = .declared name :=
  pristine.declared n (nonterminals_usefulPart_sublist.subset hn)

/-- A run on a pristine grammar leaves distinct origins. -/
theorem Pristine.originsApart_paired (pristine : g.Pristine) (derivesEmpty : Bool) :
    (g.usefulPart.paired derivesEmpty).OriginsApart := by
  rw [OriginsApart, nonterminals_paired, List.map_append, List.nodup_append']
  refine ⟨?_, nodup_origins_freshNonterminals, ?_⟩
  · exact pristine.originsApart.sublist (nonterminals_usefulPart_sublist.map _)
  · intro origin old new
    obtain ⟨n, hn, rfl⟩ := List.mem_map.mp old
    obtain ⟨m, hm, same⟩ := List.mem_map.mp new
    obtain ⟨name, declared⟩ := pristine.declared_of_mem_usefulPart hn
    obtain ⟨i, kind, _, rfl⟩ := mem_freshNonterminals.mp hm
    cases same.trans declared

theorem Pristine.originsApart_of_normalize (pristine : g.Pristine)
    (ok : g.normalize policy = .ok c) : c.grammar.OriginsApart := by
  obtain ⟨rfl, _⟩ := pristine.obtained.eq_paired_of_normalize ok
  exact pristine.originsApart_paired (g.keepsEmptyWord policy)

end FirstRun

/-- A normal form that keeps the empty word by a start symbol with this serial number. Start
symbols that earlier runs added occur in no body, and no other two nonterminals have the same
origin. -/
structure Crowned (g : Grammar) (serial : Nat) : Prop where
  obtained : Obtained (.grammar g)
  form : g.InNormalForm true
  start_mem : ⟨g.start, .fresh .start serial⟩ ∈ g.nonterminals
  leftover : ∀ n ∈ g.nonterminals, ∀ k, n.origin = .fresh .start k → n.id ≠ g.start →
    ∀ p ∈ g.productions, .nonterminal n.id ∉ p.body
  others_apart : ∀ n ∈ g.nonterminals, ∀ m ∈ g.nonterminals, n.origin = m.origin →
    (∀ k, n.origin ≠ .fresh .start k) → n = m

/-- A first run that keeps the empty word adds its start symbol after all other nonterminals. -/
theorem Pristine.crowned (pristine : g.Pristine) (ok : g.normalize policy = .ok c)
    (keeps : c.derivesEmpty = true) : c.grammar.Crowned (g.usefulPart.demand false + 1) := by
  have next : Obtained (.normalForm c) := pristine.obtained.normalize ok
  obtain ⟨rfl, _⟩ := pristine.obtained.eq_paired_of_normalize ok
  have keeps : g.keepsEmptyWord policy = true := keeps
  rw [keeps] at next ⊢
  have count : g.usefulPart.demand false = freshCount g.usefulPart.productions := by
    rw [← length_freshKinds_eq_demand, length_freshKinds, if_neg Bool.false_ne_true, Nat.add_zero]
  refine ⟨next.release, next.lawful.2, ?_, ?_, ?_⟩
  · rw [count, start_paired_true]
    exact emptyStart_mem_nonterminals
  · intro n hn k added other
    rw [nonterminals_paired, List.mem_append] at hn
    cases hn with
    | inl old =>
        obtain ⟨name, declared⟩ := pristine.declared_of_mem_usefulPart old
        cases added.symm.trans declared
    | inr new =>
        -- The only added nonterminal of this kind is the start symbol itself.
        obtain ⟨i, kind, found, rfl⟩ := mem_freshNonterminals.mp new
        obtain ⟨rfl, _⟩ := Origin.fresh.inj added
        obtain ⟨_, last⟩ := place_of_getElem?_freshKinds found
        rw [last, start_paired_true] at other
        exact absurd rfl other
  · intro n hn m hm same _
    exact List.inj_on_of_nodup_map (pristine.originsApart_paired true) hn hm same

namespace Crowned

theorem wellFormed (crowned : g.Crowned serial) : g.WellFormed := crowned.obtained.lawful

/-- Of the start symbols that runs have added, only the latest survives a reduction. -/
theorem eq_start_of_mem_usefulPart (crowned : g.Crowned serial)
    (reached : g.usefulPart.AllReachable) {n : Nonterminal} (member : n ∈ g.usefulPart.nonterminals)
    {k : Nat} (added : n.origin = .fresh .start k) : n = ⟨g.start, .fresh .start serial⟩ := by
  have old : n ∈ g.nonterminals := nonterminals_usefulPart_sublist.subset member
  apply List.inj_on_of_nodup_map crowned.wellFormed.nonterminal_ids_nodup old crowned.start_mem
  cases crowned.form.occurs_of_mem_usefulPart crowned.wellFormed reached member with
  | inl start => exact start
  | inr inside =>
      obtain ⟨p, hp, inside⟩ := inside
      by_contra other
      exact crowned.leftover n old k added other p hp inside

theorem start_mem_usefulPart (crowned : g.Crowned serial) (reduced : g.usefulPart.WellFormed) :
    ⟨g.start, .fresh .start serial⟩ ∈ g.usefulPart.nonterminals := by
  obtain ⟨entry, there, same⟩ := List.mem_map.mp reduced.start_declared
  rw [start_usefulPart] at same
  have old : entry ∈ g.nonterminals := nonterminals_usefulPart_sublist.subset there
  have latest : entry = ⟨g.start, .fresh .start serial⟩ :=
    List.inj_on_of_nodup_map crowned.wellFormed.nonterminal_ids_nodup old crowned.start_mem same
  rwa [latest] at there

/-- A reduction leaves distinct origins. -/
theorem originsApart_usefulPart (crowned : g.Crowned serial)
    (reached : g.usefulPart.AllReachable) : g.usefulPart.OriginsApart := by
  have entries : g.usefulPart.nonterminals.Nodup :=
    (List.Nodup.of_map _ crowned.wellFormed.nonterminal_ids_nodup).sublist
      nonterminals_usefulPart_sublist
  apply List.Nodup.map_on _ entries
  intro n hn m hm same
  by_cases added : ∃ k, n.origin = .fresh .start k
  · obtain ⟨k, added⟩ := added
    calc
      n = ⟨g.start, .fresh .start serial⟩ := crowned.eq_start_of_mem_usefulPart reached hn added
      _ = m := (crowned.eq_start_of_mem_usefulPart reached hm (same.symm.trans added)).symm
  · exact crowned.others_apart n (nonterminals_usefulPart_sublist.subset hn) m
      (nonterminals_usefulPart_sublist.subset hm) same (not_exists.mp added)

theorem binary_usefulPart (crowned : g.Crowned serial) :
    ∀ p ∈ g.usefulPart.productions, Binary p.body :=
  fun _ hp => (crowned.form.mem_usefulPart crowned.wellFormed hp).2

/-- A run that drops the empty word ends the series: its result is settled and has distinct
origins. -/
theorem normalize_drop (crowned : g.Crowned serial) (ok : g.normalize .drop = .ok c) :
    c.grammar.Settled ∧ c.grammar.OriginsApart := by
  have settled := crowned.obtained.settled_of_normalize ok
  obtain ⟨rfl, reduced, _⟩ := crowned.obtained.eq_paired_of_normalize ok
  obtain ⟨_, _, reached⟩ := reduced.lawful
  have table : (g.usefulPart.paired false).nonterminals = g.usefulPart.nonterminals := by
    rw [nonterminals_paired, freshKinds_eq crowned.binary_usefulPart]
    exact List.append_nil _
  refine ⟨settled rfl, ?_⟩
  change (g.usefulPart.paired false).OriginsApart
  rw [OriginsApart, table]
  exact crowned.originsApart_usefulPart reached

/-- The replaced start symbol occurs in no body: it occurred in none before, and the only new body
is the empty one. -/
theorem start_notMem_body (crowned : g.Crowned serial) {p : Production}
    (hp : p ∈ (g.usefulPart.paired true).productions) : .nonterminal g.start ∉ p.body := by
  cases body_of_mem_paired crowned.binary_usefulPart hp with
  | inl empty =>
      rw [empty]
      exact List.not_mem_nil
  | inr own =>
      obtain ⟨q, hq, same⟩ := own
      rw [← same]
      exact crowned.form.start_unused rfl q (crowned.form.mem_usefulPart crowned.wellFormed hq).1

theorem mem_nonterminals_paired (crowned : g.Crowned serial) {n : Nonterminal} :
    n ∈ (g.usefulPart.paired true).nonterminals ↔
      n ∈ g.usefulPart.nonterminals ∨
        n = ⟨(g.usefulPart.paired true).start, .fresh .start 1⟩ := by
  rw [crowned.form.nonterminals_paired_usefulPart crowned.wellFormed, List.mem_append,
    List.mem_singleton]

/-- A run that preserves the empty word adds a start symbol with the serial number 1. -/
theorem paired (crowned : g.Crowned serial) (reached : g.usefulPart.AllReachable)
    (next : Obtained (.normalForm ⟨g.usefulPart.paired true, true⟩)) :
    (g.usefulPart.paired true).Crowned 1 where
  obtained := next.release
  form := next.lawful.2
  start_mem := crowned.mem_nonterminals_paired.mpr (Or.inr rfl)
  leftover n hn k added other p hp := by
    cases crowned.mem_nonterminals_paired.mp hn with
    | inl old =>
        obtain rfl := crowned.eq_start_of_mem_usefulPart reached old added
        exact crowned.start_notMem_body hp
    | inr new =>
        rw [new] at other
        exact absurd rfl other
  others_apart n hn m hm same plain := by
    have old {n : Nonterminal} (hn : n ∈ (g.usefulPart.paired true).nonterminals)
        (plain : ∀ k, n.origin ≠ .fresh .start k) : n ∈ g.nonterminals := by
      cases crowned.mem_nonterminals_paired.mp hn with
      | inl old => exact nonterminals_usefulPart_sublist.subset old
      | inr new =>
          rw [new] at plain
          exact absurd rfl (plain 1)
    exact crowned.others_apart n (old hn plain) m (old hm (same ▸ plain)) same plain

/-- The name of the new start symbol is new exactly if the replaced one has another serial
number. -/
theorem originsApart_paired_iff (crowned : g.Crowned serial) (reduced : g.usefulPart.WellFormed)
    (reached : g.usefulPart.AllReachable) :
    (g.usefulPart.paired true).OriginsApart ↔ serial ≠ 1 := by
  rw [OriginsApart, crowned.form.nonterminals_paired_usefulPart crowned.wellFormed,
    List.map_append, List.nodup_append']
  constructor
  · rintro ⟨_, _, disjoint⟩ rfl
    have start := crowned.start_mem_usefulPart reduced
    exact disjoint (List.mem_map_of_mem start) List.mem_cons_self
  · intro other
    refine ⟨crowned.originsApart_usefulPart reached, List.nodup_singleton _, ?_⟩
    intro origin old new
    obtain ⟨n, hn, rfl⟩ := List.mem_map.mp old
    have added : n.origin = .fresh .start 1 := List.mem_singleton.mp new
    rw [crowned.eq_start_of_mem_usefulPart reached hn added] at added
    exact other (Origin.fresh.inj added).2

theorem normalize_preserve (crowned : g.Crowned serial) (ok : g.normalize .preserve = .ok c) :
    c.grammar.Crowned 1 ∧ (c.grammar.OriginsApart ↔ serial ≠ 1) := by
  have next : Obtained (.normalForm c) := crowned.obtained.normalize ok
  have keeps : g.keepsEmptyWord .preserve = true :=
    keepsEmptyWord_iff.mpr ⟨rfl, crowned.form.derives_nil_iff.mpr rfl⟩
  obtain ⟨rfl, reduced, _⟩ := crowned.obtained.eq_paired_of_normalize ok
  obtain ⟨proper, _, reached⟩ := reduced.lawful
  rw [keeps] at next ⊢
  exact ⟨crowned.paired reached next, crowned.originsApart_paired_iff proper.wellFormed reached⟩

/-- After one or more runs on a crowned grammar the origins are distinct unless the empty word
was preserved throughout, and then only after a single run that met another serial number. -/
theorem originsApart_normalizeAll_iff (crowned : g.Crowned serial) {policies : List EmptyWord}
    (some : policies ≠ []) (ran : g.normalizeAll policies = .ok h) :
    h.OriginsApart ↔
      ((∀ policy ∈ policies, policy = .preserve) → policies.length = 1 ∧ serial ≠ 1) := by
  induction policies generalizing g serial with
  | nil => exact absurd rfl some
  | cons policy rest ih =>
      obtain ⟨c, ok, later⟩ := normalizeAll_cons.mp ran
      cases policy with
      | drop =>
          obtain ⟨settled, apart⟩ := crowned.normalize_drop ok
          rw [settled.normalizeAll_eq] at later
          cases later
          refine iff_of_true apart ?_
          intro all
          cases all .drop List.mem_cons_self
      | preserve =>
          obtain ⟨next, apart⟩ := crowned.normalize_preserve ok
          cases rest with
          | nil =>
              obtain rfl := normalizeAll_nil.mp later
              simp [apart]
          | cons second others =>
              rw [ih next (List.cons_ne_nil _ _) later]
              simp

end Crowned

/-- When origins are distinct after a series of runs. -/
theorem Pristine.originsApart_normalizeAll_iff (pristine : g.Pristine)
    {policies : List EmptyWord} (ran : g.normalizeAll policies = .ok h) :
    h.OriginsApart ↔
      (g.Derives g.start [] → (∀ policy ∈ policies, policy = .preserve) →
        policies.length < 2 ∨ (policies.length = 2 ∧ 0 < g.usefulPart.demand false)) := by
  cases policies with
  | nil =>
      obtain rfl := normalizeAll_nil.mp ran
      exact iff_of_true pristine.originsApart fun _ _ => Or.inl (Nat.zero_lt_succ 1)
  | cons policy rest =>
      obtain ⟨c, ok, later⟩ := normalizeAll_cons.mp ran
      have apart := pristine.originsApart_of_normalize ok
      have keeps : c.derivesEmpty = true ↔ policy = .preserve ∧ g.Derives g.start [] := by
        obtain ⟨rfl, _⟩ := pristine.obtained.eq_paired_of_normalize ok
        exact keepsEmptyWord_iff
      by_cases crown : c.derivesEmpty = true
      · have crowned := pristine.crowned ok crown
        obtain ⟨rfl, derives⟩ := keeps.mp crown
        cases rest with
        | nil =>
            obtain rfl := normalizeAll_nil.mp later
            exact iff_of_true apart fun _ _ => Or.inl (Nat.lt_succ_self 1)
        | cons second others =>
            have lengths : (second :: others).length = 1 ∧ g.usefulPart.demand false + 1 ≠ 1 ↔
                (.preserve :: second :: others).length < 2 ∨
                  ((.preserve :: second :: others).length = 2 ∧
                    0 < g.usefulPart.demand false) := by
              simp only [List.length_cons]
              omega
            have all : (∀ policy ∈ EmptyWord.preserve :: second :: others, policy = .preserve) ↔
                ∀ policy ∈ second :: others, policy = .preserve := by
              rw [List.forall_mem_cons, and_iff_right rfl]
            rw [crowned.originsApart_normalizeAll_iff (List.cons_ne_nil _ _) later, lengths, all]
            exact ⟨fun few _ => few, fun few => few derives⟩
      · -- The first result is settled, so all later runs return it.
        have settled := pristine.obtained.settled_of_normalize ok (Bool.eq_false_iff.mpr crown)
        rw [settled.normalizeAll_eq] at later
        cases later
        refine iff_of_true apart ?_
        intro derives all
        exact absurd (keeps.mpr ⟨all policy List.mem_cons_self, derives⟩) crown

end Grammar

/-- A loaded grammar has valid names and declared nonterminals only. -/
theorem Specification.pristine_of_load {specification : Specification} {g : Grammar}
    (loaded : specification.load = .ok g) : g.Pristine := by
  obtain ⟨last, consistent, finished⟩ := Specification.exists_finish_of_load loaded
  obtain ⟨start, _, rfl, _⟩ := Definition.finish_eq_ok_iff.mp finished
  have declared : ∀ n ∈ last.nonterminals.toList, ∃ name, n.origin = .declared name := by
    intro n hn
    obtain ⟨name, named⟩ := Option.isSome_iff_exists.mp (consistent.origins_declared n hn)
    exact ⟨name, Nonterminal.origin_of_declaredName? named⟩
  refine ⟨.load loaded, ⟨?_, ?_⟩, declared⟩
  · intro t ht
    exact consistent.names_valid t.name (List.mem_append_left _ (List.mem_map_of_mem ht))
  · intro n hn
    obtain ⟨name, origin⟩ := declared n hn
    rw [origin]
    apply consistent.names_valid name
    refine List.mem_append_right _ (List.mem_filterMap.mpr ⟨n, hn, ?_⟩)
    rw [Nonterminal.declaredName?, origin]
    rfl

/-- When display names are distinct after a series of normalizations of a loaded grammar. They
are, unless the empty word is derived and preserved throughout; and then only after a single run,
or after a second one if the first has added other nonterminals before its start symbol. No
nonterminal is ever displayed by the name of a terminal. -/
theorem Specification.display_names_nodup_iff {specification : Specification} {g h : Grammar}
    {policies : List EmptyWord} (loaded : specification.load = .ok g)
    (ran : g.normalizeAll policies = .ok h) :
    ((h.nonterminals.map Nonterminal.text).Nodup ↔
      (g.Derives g.start [] → (∀ policy ∈ policies, policy = .preserve) →
        policies.length < 2 ∨ (policies.length = 2 ∧ 0 < g.usefulPart.demand false))) ∧
    ∀ n ∈ h.nonterminals, ∀ t ∈ h.terminals, n.text ≠ t.name := by
  have pristine := Specification.pristine_of_load loaded
  obtain ⟨titled, obtained⟩ := pristine.titled.normalizeAll pristine.obtained ran
  constructor
  · exact titled.nodup_text_iff.trans (pristine.originsApart_normalizeAll_iff ran)
  · intro n hn t ht
    exact titled.text_ne_name obtained.lawful hn ht

/-- The palindromes preserve their empty word twice without a collision, since the first run adds
proxies and links. -/
theorem evenPalindromes_display_names_nodup :
    let twice := (evenPalindromes.usefulPart.paired true).usefulPart.paired true
    (Specification.catalog .palindromes).load = .ok evenPalindromes ∧
      evenPalindromes.normalizeAll [.preserve, .preserve] = .ok twice ∧
      0 < evenPalindromes.usefulPart.demand false ∧
      (twice.nonterminals.map Nonterminal.text).Nodup := by
  intro twice
  have loaded : (Specification.catalog .palindromes).load = .ok evenPalindromes := by
    decide +kernel
  have ran : evenPalindromes.normalizeAll [.preserve, .preserve] = .ok twice := by
    decide +kernel
  have others : 0 < evenPalindromes.usefulPart.demand false := by decide +kernel
  refine ⟨loaded, ran, others, ?_⟩
  apply (Specification.display_names_nodup_iff loaded ran).1.mpr
  intro _ _
  exact Or.inr ⟨rfl, others⟩

/-- The empty word and the word `aa`. -/
def noneOrTwo : Grammar where
  terminals := [⟨⟨0⟩, "a"⟩]
  nonterminals := [⟨⟨0⟩, .declared "S"⟩, ⟨⟨1⟩, .declared "A"⟩]
  families :=
    [⟨⟨0⟩, [[.nonterminal ⟨1⟩, .nonterminal ⟨1⟩], []]⟩, ⟨⟨1⟩, [[.terminal ⟨0⟩]]⟩]
  start := ⟨0⟩
  nextNonterminal := 2

/-- Two runs that need no other nonterminals add two start symbols with one name. -/
theorem noneOrTwo_display_names_collide :
    let twice := (noneOrTwo.usefulPart.paired true).usefulPart.paired true
    (Specification.source "S -> AA | ε; A -> a" {}).load = .ok noneOrTwo ∧
      noneOrTwo.normalizeAll [.preserve, .preserve] = .ok twice ∧
      twice.nonterminals.map Nonterminal.text = ["A", "$S1", "$S1"] ∧
      ¬ (twice.nonterminals.map Nonterminal.text).Nodup := by
  intro twice
  have texts : twice.nonterminals.map Nonterminal.text = ["A", "$S1", "$S1"] := by decide +kernel
  refine ⟨by decide +kernel, by decide +kernel, texts, ?_⟩
  rw [texts]
  decide

end ContextFree
