import ContextFree.Proofs.Grouping
import ContextFree.Proofs.Minting
import ContextFree.Proofs.NormalForm.Paired

/-!
# The conversion as a loop gives what is planned

The loop adds its nonterminals and productions one by one. `Leads` says where a step of it leads:
it gives an answer and a later conversion if the numbers up to a bound exist, and runs out of
numbers otherwise. Steps one after the other lead where the last of them leads, under the bound of
the last, so the loops are followed by induction on the lists they run through.

When a terminal is met, its proxy is the same as in the table of all proxies, since the terminals
met so far are a prefix of those met in the end. Therefore isolation by and by agrees with
isolation by the full table, and the links are numbered behind the proxies.

## Main statements

* `Conversion.Synced.leads_mapM_isolate`: isolating the terminals of all bodies.
* `Conversion.Synced.leads_forM_binarize`: splitting all bodies.
* `Conversion.exists_leads_convert`: the whole loop.
* `Reachable.convert_eq_normalForm`: the loop and the plan have the same outcome.
-/

namespace ContextFree

open NormalForm

theorem freshNonterminals_eq_numbered (next : Nat) (kinds : List FreshKind) :
    freshNonterminals next kinds = numbered next 0 kinds := by
  rw [freshNonterminals, numbered, List.mapIdx_eq_zipIdx_map]
  simp only [Nat.zero_add]

namespace Conversion

variable {α β : Type} {c mid last : Conversion} {needed more : Nat} {a : α} {b : β}

/-- From `c` a step leads to `last` with the answer `a`, if the first `needed` numbers exist. -/
def Leads (m : Converting α) (c : Conversion) (needed : Nat) (a : α) (last : Conversion) : Prop :=
  m.run c = if needed ≤ idLimit then .ok (a, last)
    else .error (.freshSymbolsExhausted .normalization)

theorem leads_of_ok {m : Converting α} (room : needed ≤ idLimit) (ok : m.run c = .ok (a, last)) :
    Leads m c needed a last := by
  rw [Leads, if_pos room, ok]

/-- A step after another one. -/
theorem Leads.bind {m : Converting α} {f : α → Converting β} (first : Leads m c needed a mid)
    (le : needed ≤ more) (rest : needed ≤ idLimit → Leads (f a) mid more b last) :
    Leads (m >>= f) c more b last := by
  rw [Leads, StateT.run_bind, first]
  by_cases room : needed ≤ idLimit
  · rw [if_pos room]
    exact rest room
  · rw [if_neg room, if_neg fun all => room (le.trans all)]
    rfl

theorem leads_pure (room : needed ≤ idLimit) (a : α) : Leads (pure a) c needed a c :=
  leads_of_ok room rfl

/-- The conversion with further nonterminals and productions. -/
def extend (c : Conversion) (kinds : List FreshKind) (rules : List Production) : Conversion :=
  { c with
    grammar := { c.grammar.withFresh c.supply.serial kinds with
      families := rules.foldl insertProduction c.grammar.families }
    supply := ⟨c.supply.serial + kinds.length⟩ }

theorem extend_extend (c : Conversion) (kinds kinds' : List FreshKind)
    (rules rules' : List Production) :
    (c.extend kinds rules).extend kinds' rules' = c.extend (kinds ++ kinds') (rules ++ rules') := by
  simp only [extend, Grammar.withFresh, numbered_append, List.foldl_append, List.append_assoc,
    List.length_append, Nat.add_assoc]

@[simp]
theorem extend_nil (c : Conversion) : c.extend [] [] = c := by
  simp [extend]

/-- No more serial numbers have been given away than there are numbers in use. -/
def Synced (c : Conversion) : Prop := c.supply.serial ≤ c.grammar.nextNonterminal

theorem Synced.extend (h : c.Synced) (kinds : List FreshKind) (rules : List Production) :
    (c.extend kinds rules).Synced :=
  Nat.add_le_add_right h kinds.length

theorem run_mint (kind : FreshKind) (c : Conversion) :
    (mint kind).run c = c.supply.mint c.grammar kind >>= fun (n, g, supply) =>
      .ok (n, { c with grammar := g, supply := supply }) := by
  change (c.supply.mint c.grammar kind >>= fun minted => pure (minted, c)) >>= _ = _
  cases c.supply.mint c.grammar kind with
  | ok minted => rfl
  | error e => rfl

theorem Synced.leads_mint (h : c.Synced) (kind : FreshKind) :
    Leads (mint kind) c (c.grammar.nextNonterminal + 1) ⟨c.grammar.nextNonterminal⟩
      (c.extend [kind] []) := by
  rw [Leads, run_mint, FreshSupply.mint_eq]
  by_cases room : c.grammar.nextNonterminal < idLimit
  · rw [if_pos ⟨FreshSupply.lt_serialLimit h room, room⟩, if_pos (Nat.succ_le_of_lt room)]
    rfl
  · rw [if_neg fun both => room both.2, if_neg fun le => room (Nat.lt_of_succ_le le)]
    rfl

theorem leads_insert (room : needed ≤ idLimit) (p : Production) :
    Leads (insert p) c needed () (c.extend [] [p]) := by
  have extended : c.extend [] [p] =
      { c with grammar := { c.grammar with
          families := insertProduction c.grammar.families p } } := by
    simp [extend]
  rw [extended]
  exact leads_of_ok room rfl

theorem leads_get (room : needed ≤ idLimit) : Leads get c needed c c := leads_of_ok room rfl

theorem leads_modify (room : needed ≤ idLimit) (f : Conversion → Conversion) :
    Leads (modify f) c needed () (f c) := leads_of_ok room rfl

section Isolate

/-- The terminals in bodies of two or more symbols, one by one. -/
def inner (productions : List Production) : List TerminalId :=
  (productions.filter fun p => 2 ≤ p.body.length).flatMap fun p =>
    p.body.filterMap Symbol.terminal?

theorem inner_nil : inner [] = [] := rfl

theorem inner_cons (p : Production) (rest : List Production) :
    inner (p :: rest) = inner [p] ++ inner rest := by
  rw [← List.singleton_append, inner, List.filter_append, List.flatMap_append]
  rfl

/-- The conversion after the terminals of longer bodies were met in this order. -/
def met (c : Conversion) (occurrences : List TerminalId) : Conversion :=
  let terminals := distinct occurrences
  { c.extend (List.replicate terminals.length .terminalProxy)
      (proxyRules terminals c.grammar.nextNonterminal) with
    proxies := NormalForm.proxies terminals c.grammar.nextNonterminal }

variable {occurrences : List TerminalId} {t : TerminalId}

theorem met_of_mem (known : t ∈ occurrences) : c.met (occurrences ++ [t]) = c.met occurrences := by
  rw [met, met, distinct_append_singleton, if_pos known]

theorem met_of_not_mem (new : t ∉ occurrences) :
    c.met (occurrences ++ [t]) =
      let proxy : NonterminalId := ⟨(c.met occurrences).grammar.nextNonterminal⟩
      { (c.met occurrences).extend [.terminalProxy] [⟨proxy, [.terminal t]⟩] with
        proxies := (c.met occurrences).proxies ++ [(t, proxy)] } := by
  have proxies : NormalForm.proxies (distinct occurrences ++ [t]) c.grammar.nextNonterminal =
      (c.met occurrences).proxies ++ [(t, ⟨(c.met occurrences).grammar.nextNonterminal⟩)] := by
    simp [NormalForm.proxies, List.zipIdx_append, met, extend, Grammar.withFresh]
  have rules : proxyRules (distinct occurrences ++ [t]) c.grammar.nextNonterminal =
      proxyRules (distinct occurrences) c.grammar.nextNonterminal ++
        [⟨⟨(c.met occurrences).grammar.nextNonterminal⟩, [.terminal t]⟩] := by
    rw [proxyRules, proxies, List.map_append]
    rfl
  rw [met, distinct_append_singleton, if_neg new, proxies, rules, List.length_append,
    List.length_singleton, List.replicate_succ', ← extend_extend]
  rfl

theorem Synced.met (h : c.Synced) (occurrences : List TerminalId) : (c.met occurrences).Synced :=
  h.extend _ _

theorem nextNonterminal_met (c : Conversion) (occurrences : List TerminalId) :
    (c.met occurrences).grammar.nextNonterminal =
      c.grammar.nextNonterminal + (distinct occurrences).length := by
  simp [met, extend, Grammar.withFresh]

theorem mem_of_lookup_met {n : NonterminalId}
    (found : (c.met occurrences).proxies.lookup t = some n) :
    t ∈ occurrences ∧
      (t, n) ∈ NormalForm.proxies (distinct occurrences) c.grammar.nextNonterminal := by
  have member : (t, n) ∈ (c.met occurrences).proxies := by
    obtain ⟨before, after, split, _⟩ := List.lookup_eq_some_iff.mp found
    rw [split]
    exact List.mem_append_right _ List.mem_cons_self
  obtain ⟨i, place, _⟩ := mem_proxies.mp member
  exact ⟨mem_distinct.mp (List.mem_of_getElem? place), member⟩

theorem not_mem_of_lookup_met (found : (c.met occurrences).proxies.lookup t = none) :
    t ∉ occurrences := by
  intro known
  obtain ⟨i, place⟩ := List.mem_iff_getElem?.mp (mem_distinct.mpr known)
  have member : (t, (⟨c.grammar.nextNonterminal + i⟩ : NonterminalId)) ∈
      (c.met occurrences).proxies := mem_proxies.mpr ⟨i, place, rfl⟩
  simpa using List.lookup_eq_none_iff.mp found _ member

theorem Synced.leads_addProxy (h : c.Synced) (new : t ∉ occurrences) :
    Leads (addProxy t) (c.met occurrences) ((c.met occurrences).grammar.nextNonterminal + 1)
      ⟨(c.met occurrences).grammar.nextNonterminal⟩ (c.met (occurrences ++ [t])) := by
  rw [met_of_not_mem new]
  refine ((h.met occurrences).leads_mint .terminalProxy).bind le_rfl fun room => ?_
  refine (leads_insert room _).bind le_rfl fun _ => ?_
  refine (leads_modify room _).bind le_rfl fun _ => ?_
  rw [extend_extend]
  exact leads_pure room _

/-- A terminal gets its proxy where it is met for the first time. -/
theorem Synced.exists_leads_proxyOf (h : c.Synced)
    (room : c.grammar.nextNonterminal + (distinct occurrences).length ≤ idLimit) (t : TerminalId) :
    ∃ n, (t, n) ∈ NormalForm.proxies (distinct (occurrences ++ [t])) c.grammar.nextNonterminal ∧
      Leads (proxyOf t) (c.met occurrences)
        (c.grammar.nextNonterminal + (distinct (occurrences ++ [t])).length) n
        (c.met (occurrences ++ [t])) := by
  have looked := leads_get (c := c.met occurrences) room
  cases found : (c.met occurrences).proxies.lookup t with
  | some n =>
      obtain ⟨known, member⟩ := mem_of_lookup_met found
      rw [met_of_mem known, distinct_append_singleton, if_pos known]
      refine ⟨n, member, looked.bind le_rfl fun room => ?_⟩
      rw [found]
      exact leads_pure room n
  | none =>
      have new := not_mem_of_lookup_met found
      have next := nextNonterminal_met c occurrences
      have added := h.leads_addProxy new
      rw [next, Nat.add_assoc] at added
      rw [distinct_append_singleton, if_neg new, List.length_append, List.length_singleton]
      refine ⟨⟨c.grammar.nextNonterminal + (distinct occurrences).length⟩, ?_, ?_⟩
      · exact mem_proxies.mpr ⟨(distinct occurrences).length, List.getElem?_concat_length, rfl⟩
      · refine looked.bind (by omega) fun _ => ?_
        rw [found]
        exact added

variable {all : List TerminalId}

theorem Synced.leads_isolateSymbol (h : c.Synced)
    (room : c.grammar.nextNonterminal + (distinct occurrences).length ≤ idLimit) {s : Symbol}
    (within : occurrences ++ s.terminal?.toList <+: all) :
    Leads (isolateSymbol s) (c.met occurrences)
      (c.grammar.nextNonterminal + (distinct (occurrences ++ s.terminal?.toList)).length)
      (NormalForm.isolateSymbol (proxyTable (distinct all) c.grammar.nextNonterminal) s)
      (c.met (occurrences ++ s.terminal?.toList)) := by
  cases s with
  | terminal t =>
      obtain ⟨n, proxy, leads⟩ := h.exists_leads_proxyOf room t
      obtain ⟨i, place, same⟩ := mem_proxies.mp proxy
      have final : (proxyTable (distinct all) c.grammar.nextNonterminal)[t]? = some n := by
        apply (getElem?_proxyTable (nodup_distinct all)).mpr
        obtain ⟨inside, entry⟩ := List.getElem?_eq_some_iff.mp place
        have kept := List.prefix_iff_getElem?.mp (distinct_mono within) i inside
        exact ⟨i, kept.trans (congrArg some entry), same⟩
      have value : NormalForm.isolateSymbol (proxyTable (distinct all) c.grammar.nextNonterminal)
          (.terminal t) = .nonterminal n := by
        rw [NormalForm.isolateSymbol, final]
      rw [value]
      exact leads.bind le_rfl fun room => leads_pure room _
  | nonterminal n =>
      rw [show Symbol.terminal? (.nonterminal n) = none from rfl, Option.toList_none,
        List.append_nil]
      exact leads_pure room _

theorem Synced.leads_mapM_isolateSymbol (h : c.Synced) {body : Body}
    (room : c.grammar.nextNonterminal + (distinct occurrences).length ≤ idLimit)
    (within : occurrences ++ body.filterMap Symbol.terminal? <+: all) :
    Leads (body.mapM isolateSymbol) (c.met occurrences)
      (c.grammar.nextNonterminal +
        (distinct (occurrences ++ body.filterMap Symbol.terminal?)).length)
      (body.map
        (NormalForm.isolateSymbol (proxyTable (distinct all) c.grammar.nextNonterminal)))
      (c.met (occurrences ++ body.filterMap Symbol.terminal?)) := by
  induction body generalizing occurrences with
  | nil =>
      rw [List.filterMap_nil, List.append_nil]
      exact leads_pure room _
  | cons s rest ih =>
      have split : (s :: rest).filterMap Symbol.terminal? =
          s.terminal?.toList ++ rest.filterMap Symbol.terminal? := by
        cases s with
        | terminal t => rfl
        | nonterminal n => rfl
      rw [split, ← List.append_assoc] at within ⊢
      rw [List.mapM_cons, List.map_cons]
      have first := h.leads_isolateSymbol room ((List.prefix_append _ _).trans within)
      refine first.bind ?_ fun room => (ih room within).bind le_rfl fun room => leads_pure room _
      exact Nat.add_le_add_left (distinct_mono (List.prefix_append _ _)).length_le _

theorem Synced.leads_isolate (h : c.Synced) {p : Production}
    (room : c.grammar.nextNonterminal + (distinct occurrences).length ≤ idLimit)
    (within : occurrences ++ inner [p] <+: all) :
    Leads (isolate p) (c.met occurrences)
      (c.grammar.nextNonterminal + (distinct (occurrences ++ inner [p])).length)
      ⟨p.head, NormalForm.isolate (proxyTable (distinct all) c.grammar.nextNonterminal) p.body⟩
      (c.met (occurrences ++ inner [p])) := by
  rw [isolate, NormalForm.isolate]
  by_cases short : p.body.length < 2
  · have none : inner [p] = [] := by
      simp [inner, Nat.not_le_of_lt short]
    rw [if_pos short, if_pos short, none, List.append_nil]
    exact leads_pure room _
  · have own : inner [p] = p.body.filterMap Symbol.terminal? := by
      simp [inner, Nat.le_of_not_lt short]
    rw [own] at within ⊢
    rw [if_neg short, if_neg short]
    exact (h.leads_mapM_isolateSymbol room within).bind le_rfl fun room => leads_pure room _

/-- The terminals in longer bodies are replaced as if all proxies were known from the beginning. -/
theorem Synced.leads_mapM_isolate (h : c.Synced) {productions : List Production}
    (room : c.grammar.nextNonterminal + (distinct occurrences).length ≤ idLimit)
    (within : occurrences ++ inner productions <+: all) :
    Leads (productions.mapM isolate) (c.met occurrences)
      (c.grammar.nextNonterminal + (distinct (occurrences ++ inner productions)).length)
      (isolated (distinct all) c.grammar.nextNonterminal productions)
      (c.met (occurrences ++ inner productions)) := by
  induction productions generalizing occurrences with
  | nil =>
      rw [inner_nil, List.append_nil]
      exact leads_pure room _
  | cons p rest ih =>
      rw [inner_cons, ← List.append_assoc] at within ⊢
      rw [List.mapM_cons]
      have first := h.leads_isolate room ((List.prefix_append _ _).trans within)
      refine first.bind ?_ fun room => (ih room within).bind le_rfl fun room => leads_pure room _
      exact Nat.add_le_add_left (distinct_mono (List.prefix_append _ _)).length_le _

end Isolate

section Binarize

theorem nextNonterminal_extend (c : Conversion) (kinds : List FreshKind)
    (rules : List Production) :
    (c.extend kinds rules).grammar.nextNonterminal = c.grammar.nextNonterminal + kinds.length := rfl

theorem Synced.leads_splitOff (h : c.Synced) (head : NonterminalId) (s : Symbol) :
    Leads (splitOff head s) c (c.grammar.nextNonterminal + 1) ⟨c.grammar.nextNonterminal⟩
      (c.extend [.chain] [⟨head, [s, .nonterminal ⟨c.grammar.nextNonterminal⟩]⟩]) := by
  refine (h.leads_mint .chain).bind le_rfl fun room => (leads_insert room _).bind le_rfl fun _ => ?_
  rw [extend_extend]
  exact leads_pure room _

/-- Splitting off the symbols before the last two makes all pairs of a body but the last. -/
theorem Synced.exists_leads_foldlM_splitOff (h : c.Synced) (head : NonterminalId) (front : Body) :
    ∃ link rules,
      (c.grammar.nextNonterminal ≤ idLimit →
        Leads (front.foldlM splitOff head) c (c.grammar.nextNonterminal + front.length) link
          (c.extend (List.replicate front.length .chain) rules)) ∧
      ∀ a b,
        chain head c.grammar.nextNonterminal (front ++ [a, b]) = rules ++ [⟨link, [a, b]⟩] := by
  induction front generalizing c head with
  | nil =>
      refine ⟨head, [], fun room => ?_, fun a b => rfl⟩
      rw [List.length_nil, List.replicate_zero, extend_nil]
      exact leads_pure room _
  | cons s front ih =>
      obtain ⟨link, rules, leads, pairs⟩ :=
        ih (h.extend [.chain] [⟨head, [s, .nonterminal ⟨c.grammar.nextNonterminal⟩]⟩])
          ⟨c.grammar.nextNonterminal⟩
      rw [nextNonterminal_extend, List.length_singleton, Nat.add_assoc, Nat.add_comm 1] at leads
      refine ⟨link, ⟨head, [s, .nonterminal ⟨c.grammar.nextNonterminal⟩]⟩ :: rules, fun _ => ?_, ?_⟩
      · rw [List.foldlM_cons]
        refine (h.leads_splitOff head s).bind (by simp) fun room => ?_
        have tail := leads room
        rw [extend_extend] at tail
        exact tail
      · intro a b
        rw [List.cons_append, chain_cons (by simp)]
        exact congrArg _ (pairs a b)

theorem Synced.leads_binarize (h : c.Synced) (room : c.grammar.nextNonterminal ≤ idLimit)
    (p : Production) :
    Leads (binarize p) c (c.grammar.nextNonterminal + linkCount p) ()
      (c.extend (List.replicate (linkCount p) .chain)
        (chain p.head c.grammar.nextNonterminal p.body)) := by
  rw [binarize]
  by_cases short : p.body.length ≤ 2
  · have none : linkCount p = 0 := Nat.sub_eq_zero_of_le short
    rw [if_pos short, chain_of_length_le short, none]
    exact leads_insert room p
  · obtain ⟨link, rules, leads, pairs⟩ :=
      h.exists_leads_foldlM_splitOff p.head (p.body.take (p.body.length - 2))
    have front : (p.body.take (p.body.length - 2)).length = linkCount p := by
      rw [List.length_take, linkCount]
      omega
    obtain ⟨a, b, back⟩ : ∃ a b, p.body.drop (p.body.length - 2) = [a, b] := by
      apply List.length_eq_two.mp
      rw [List.length_drop]
      omega
    have whole := pairs a b
    rw [← back, List.take_append_drop] at whole
    rw [front] at leads
    rw [if_neg short, whole]
    refine (leads room).bind le_rfl fun room => ?_
    have last := leads_insert (c := c.extend (List.replicate (linkCount p) .chain) rules) room
      ⟨link, p.body.drop (p.body.length - 2)⟩
    rw [extend_extend, List.append_nil] at last
    exact last

/-- The pairs of all bodies are made in the order of the bodies. -/
theorem Synced.leads_forM_binarize (h : c.Synced) (room : c.grammar.nextNonterminal ≤ idLimit)
    (productions : List Production) :
    Leads (productions.forM binarize) c
      (c.grammar.nextNonterminal + (productions.map linkCount).sum) ()
      (c.extend (List.replicate (productions.map linkCount).sum .chain)
        (NormalForm.binarize c.grammar.nextNonterminal productions)) := by
  induction productions generalizing c with
  | nil =>
      have none : c.extend [] (NormalForm.binarize c.grammar.nextNonterminal []) = c := extend_nil c
      rw [List.map_nil, List.sum_nil, List.replicate_zero, none]
      exact leads_pure room _
  | cons p rest ih =>
      rw [List.map_cons, List.sum_cons, List.replicate_add, binarize_cons]
      refine (h.leads_binarize room p).bind (by omega) fun room => ?_
      have counted := nextNonterminal_extend c (List.replicate (linkCount p) .chain)
        (chain p.head c.grammar.nextNonterminal p.body)
      rw [List.length_replicate] at counted
      have tail := ih (h.extend _ _) (counted ▸ room)
      rw [counted, extend_extend, Nat.add_assoc] at tail
      exact tail

end Binarize

section Start

theorem leads_forM_insert (room : needed ≤ idLimit) (start : NonterminalId) (bodies : List Body) :
    Leads (bodies.forM fun body => insert ⟨start, body⟩) c needed ()
      (c.extend [] (bodies.map fun body => ⟨start, body⟩)) := by
  induction bodies generalizing c with
  | nil =>
      rw [List.map_nil, extend_nil]
      exact leads_pure room _
  | cons body rest ih =>
      refine (leads_insert room _).bind le_rfl fun _ => ?_
      have tail := ih (c := c.extend [] [⟨start, body⟩])
      rw [extend_extend] at tail
      exact tail

/-- The conversion with a new start symbol that also has the empty body. -/
def withEmptyStart (c : Conversion) : Conversion :=
  let start : NonterminalId := ⟨c.grammar.nextNonterminal⟩
  let added := c.extend [.start]
    ((c.grammar.bodiesOf c.grammar.start ++ [[]]).map fun body => ⟨start, body⟩)
  { added with grammar := { added.grammar with start := start } }

theorem Synced.leads_addEmptyStart (h : c.Synced) (room : c.grammar.nextNonterminal ≤ idLimit) :
    Leads addEmptyStart c (c.grammar.nextNonterminal + 1) () c.withEmptyStart := by
  refine (leads_get room).bind (Nat.le_succ _) fun _ => ?_
  refine (h.leads_mint .start).bind le_rfl fun room => ?_
  refine (leads_get room).bind le_rfl fun _ => ?_
  refine (leads_forM_insert room _ _).bind le_rfl fun _ => ?_
  refine (leads_insert room _).bind le_rfl fun _ => ?_
  have inserted : ((c.extend [.start] []).extend []
      (((c.extend [.start] []).grammar.bodiesOf c.grammar.start).map fun body =>
        ⟨⟨c.grammar.nextNonterminal⟩, body⟩)).extend [] [⟨⟨c.grammar.nextNonterminal⟩, []⟩] =
      c.extend [.start] ((c.grammar.bodiesOf c.grammar.start ++ [[]]).map fun body =>
        ⟨⟨c.grammar.nextNonterminal⟩, body⟩) := by
    simp only [extend_extend, List.nil_append, List.append_nil, List.map_append]
    rfl
  rw [inserted]
  exact leads_modify room _

theorem grammar_withEmptyStart (grouped : Grouped c.grammar.families) :
    c.withEmptyStart.grammar =
      (c.grammar.withFresh c.supply.serial [.start]).withEmptyStart
        ⟨c.grammar.nextNonterminal⟩ := by
  apply Grammar.ext
  · rfl
  · rfl
  · exact grouped.foldl_insertProduction _
  · rfl
  · rfl

end Start

section Convert

variable {g : Grammar}

theorem synced_new (g : Grammar) : (new g).Synced := Nat.zero_le _

theorem met_nil (g : Grammar) : (new g).met [] = new g := extend_nil (new g)

/-- The conversion of a grammar after all bodies were split. -/
def split (g : Grammar) : Conversion :=
  ((new g).met (inner g.productions)).extend
    (List.replicate (g.productions.map linkCount).sum .chain)
    (NormalForm.binarize (g.nextNonterminal + (proxied g.productions).length)
      (isolated (proxied g.productions) g.nextNonterminal g.productions))

theorem withFresh_withPairs (g : Grammar) (kinds more : List FreshKind) :
    (g.withPairs kinds).withFresh kinds.length more = g.withPairs (kinds ++ more) := by
  apply Grammar.ext
  · rfl
  · change g.nonterminals ++ freshNonterminals g.nextNonterminal kinds ++
      numbered (g.nextNonterminal + kinds.length) kinds.length more =
        g.nonterminals ++ freshNonterminals g.nextNonterminal (kinds ++ more)
    rw [freshNonterminals_eq_numbered, freshNonterminals_eq_numbered, numbered_append, Nat.zero_add,
      List.append_assoc]
  · rw [Grammar.families_withFresh, Grammar.families_withPairs, Grammar.families_withPairs]
  · rfl
  · change g.nextNonterminal + kinds.length + more.length =
      g.nextNonterminal + (kinds ++ more).length
    rw [List.length_append, Nat.add_assoc]

/-- All kinds and pairs are added at once to a grammar without productions. -/
theorem grammar_extend_new (g : Grammar) (kinds : List FreshKind) :
    ((new g).extend kinds (pairs g.nextNonterminal g.productions)).grammar = g.withPairs kinds := by
  apply Grammar.ext
  · rfl
  · exact congrArg (g.nonterminals ++ ·) (freshNonterminals_eq_numbered _ _).symm
  · rw [Grammar.families_withPairs]
    exact foldl_insertProduction [] _
  · rfl
  · rfl

theorem grammar_split (g : Grammar) :
    (split g).grammar = g.withPairs (freshKinds g.productions false) := by
  rw [← grammar_extend_new, freshKinds_false, pairs, ← extend_extend]
  rfl

theorem leads_isolation (le : g.nextNonterminal ≤ idLimit) :
    Leads (g.productions.mapM isolate) (new g)
      (g.nextNonterminal + (proxied g.productions).length)
      (isolated (proxied g.productions) g.nextNonterminal g.productions)
      ((new g).met (inner g.productions)) := by
  have none : distinct ([] : List TerminalId) = [] := rfl
  have isolation := (synced_new g).leads_mapM_isolate (none ▸ le)
    (List.prefix_refl ([] ++ inner g.productions))
  rw [met_nil, List.nil_append] at isolation
  exact isolation

theorem leads_splitting (room : g.nextNonterminal + (proxied g.productions).length ≤ idLimit) :
    Leads ((isolated (proxied g.productions) g.nextNonterminal g.productions).forM binarize)
      ((new g).met (inner g.productions)) (g.nextNonterminal + freshCount g.productions) ()
      (split g) := by
  have next : ((new g).met (inner g.productions)).grammar.nextNonterminal =
      g.nextNonterminal + (proxied g.productions).length := nextNonterminal_met _ _
  have splitting := ((synced_new g).met (inner g.productions)).leads_forM_binarize (next ▸ room)
    (isolated (proxied g.productions) g.nextNonterminal g.productions)
  rw [next, map_linkCount_isolated, Nat.add_assoc] at splitting
  exact splitting

theorem serial_split (g : Grammar) :
    (split g).supply.serial = (freshKinds g.productions false).length := by
  simp [split, met, extend, new, FreshSupply.new, freshKinds_false, proxied, inner]

theorem serial_withEmptyStart (c : Conversion) :
    c.withEmptyStart.supply.serial = c.supply.serial + 1 := rfl

theorem grammar_withEmptyStart_split (g : Grammar) :
    (split g).withEmptyStart.grammar = g.paired true := by
  have grouped : Grouped (split g).grammar.families := by
    rw [grammar_split]
    exact Grammar.grouped_withPairs
  have next : (split g).grammar.nextNonterminal = g.emptyStart.index := by
    rw [grammar_split, Grammar.withPairs, length_freshKinds]
    rfl
  rw [grammar_withEmptyStart grouped, next, grammar_split, serial_split, withFresh_withPairs,
    ← freshKinds_true, Grammar.paired_true]

/-- All steps together lead to the planned grammar, with a serial number for each nonterminal that
was added. -/
theorem exists_leads_convert (le : g.nextNonterminal ≤ idLimit) (derivesEmpty : Bool) :
    ∃ last, last.grammar = g.paired derivesEmpty ∧
      last.supply.serial = (freshKinds g.productions derivesEmpty).length ∧
      Leads (convert g.productions derivesEmpty) (new g)
        (g.nextNonterminal + (freshKinds g.productions derivesEmpty).length) () last := by
  have bound : (proxied g.productions).length ≤ freshCount g.productions := Nat.le_add_right _ _
  cases derivesEmpty with
  | false =>
      refine ⟨split g, grammar_split g, serial_split g, ?_⟩
      rw [length_freshKinds]
      refine (leads_isolation le).bind (by omega) fun room => ?_
      exact (leads_splitting room).bind le_rfl fun room => leads_pure room _
  | true =>
      have synced : (split g).Synced := ((synced_new g).met _).extend _ _
      have next : (split g).grammar.nextNonterminal =
          g.nextNonterminal + freshCount g.productions := by
        rw [grammar_split, Grammar.withPairs, length_freshKinds]
        rfl
      refine ⟨(split g).withEmptyStart, grammar_withEmptyStart_split g, ?_, ?_⟩
      · rw [serial_withEmptyStart, serial_split, freshKinds_true, List.length_append,
          List.length_singleton]
      rw [length_freshKinds]
      refine (leads_isolation le).bind (by omega) fun room => ?_
      refine (leads_splitting room).bind (by omega) fun room => ?_
      have start := synced.leads_addEmptyStart (next ▸ room)
      rw [next] at start
      exact start

end Convert

end Conversion

/-- The loop fails where the plan fails, and otherwise gives what was planned. -/
theorem Reachable.convert_eq_normalForm {r : Reachable}
    (le : r.grammar.nextNonterminal ≤ idLimit) (derivesEmpty : Bool) :
    r.convert derivesEmpty = r.normalForm derivesEmpty := by
  obtain ⟨last, planned, _, leads⟩ := Conversion.exists_leads_convert le derivesEmpty
  rw [Reachable.convert, leads, Reachable.normalForm]
  dsimp only
  split
  next => rw [← planned]; rfl
  next => rfl

end ContextFree
