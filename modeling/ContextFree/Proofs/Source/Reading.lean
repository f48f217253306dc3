import ContextFree.Proofs.Source.Written

/-!
# The reader accepts exactly the written texts

What the reader still accepts depends only on the rule that is open. Between rules it
accepts semicolons and written rules. With a rule open it accepts further items, further
bodies after bars, and then what it accepts between rules. Each token leads from one such
set of continuations to another, just as it leads from one state of the reader to the next.
So a text is read without a fault exactly if it is a written text, and its rules are then
the rules as written, without the epsilons.

## Main statements

* `following_iff` and `completes_iff`: what one token does to the continuations.
* `agrees_readOnto`: the reader accepts the continuations of its state and nothing else.
* `parse_accepts_written`: the parser accepts exactly the written texts.
-/

namespace ContextFree.Source

variable {ts us : List Token} {rs : List Rule} {r : OpenRule} {opened : Option OpenRule}

/-- The tokens that can follow a finished rule, and the rules they hold. -/
def Following (ts : List Token) (rs : List Rule) : Prop :=
  ∃ n ps, ts = spaced n ps ∧ rs = ps.map fun p => p.1.rule

/-- The tokens that complete an open rule and can follow it, and all rules this gives. -/
def Completes (r : OpenRule) (ts : List Token) (rs : List Rule) : Prop :=
  ∃ (items : List Item) (bodies : List WrittenBody) (us : List Token) (others : List Rule),
    ts = items.map Item.token ++ (barred bodies ++ us) ∧
    (r.body = none → items ≠ []) ∧
    rs = ⟨r.head, r.bodies.toList ++ ((r.body.getD #[]).toList ++ Item.names items) ::
      bodies.map WrittenBody.names⟩ :: others ∧
    Following us others

/-- The tokens that the reader can go on with. -/
def Continues : Option OpenRule → List Token → List Rule → Prop
  | none => Following
  | some r => Completes r

section Tokens

/-- Between rules comes the end, a semicolon, or a head with its arrow. -/
theorem following_iff :
    Following ts rs ↔
      (ts = [] ∧ rs = []) ∨ (∃ us, ts = .semicolon :: us ∧ Following us rs) ∨
        ∃ c us, ts = .symbol c :: .arrow :: us ∧ Completes (.ofHead c) us rs := by
  constructor
  · intro h
    obtain ⟨n, ps, rfl, rfl⟩ := h
    cases n with
    | succ n => exact Or.inr (Or.inl ⟨_, spaced_succ n ps, n, ps, rfl, rfl⟩)
    | zero =>
        cases ps with
        | nil => exact Or.inl ⟨rfl, rfl⟩
        | cons p ps =>
            refine Or.inr (Or.inr ⟨p.1.head, _, paragraphs_cons p ps, ?_⟩)
            refine ⟨p.1.first.items, p.1.rest, spaced p.2 ps, _, rfl, ?_, rfl, p.2, ps, rfl, rfl⟩
            exact fun _ => List.cons_ne_nil _ _
  · intro h
    cases h with
    | inl stop =>
        obtain ⟨rfl, rfl⟩ := stop
        exact ⟨0, [], rfl, rfl⟩
    | inr more =>
        cases more with
        | inl semicolon =>
            obtain ⟨_, rfl, n, ps, rfl, rfl⟩ := semicolon
            exact ⟨n + 1, ps, rfl, rfl⟩
        | inr head =>
            obtain ⟨c, _, rfl, items, bodies, _, _, rfl, nonempty, rfl, n, ps, rfl, rfl⟩ := head
            obtain ⟨first, rest, rfl⟩ := List.exists_cons_of_ne_nil (nonempty rfl)
            refine ⟨0, (⟨c, ⟨first, rest⟩, bodies⟩, n) :: ps, ?_, rfl⟩
            exact (paragraphs_cons (⟨c, ⟨first, rest⟩, bodies⟩, n) ps).symm

/-- An open rule goes on with an item or a bar, unless it is finished. -/
theorem completes_iff :
    Completes r ts rs ↔
      (∃ c us, ts = .symbol c :: us ∧ Completes (r.addSymbol c) us rs) ∨
      (∃ us, ts = .epsilon :: us ∧ Completes r.addEpsilon us rs) ∨
      (∃ next us, r.nextBody? = some next ∧ ts = .bar :: us ∧ Completes next us rs) ∨
      ∃ rule others, r.finish? = some rule ∧ rs = rule :: others ∧ Following ts others := by
  constructor
  · intro h
    obtain ⟨items, bodies, us, others, rfl, nonempty, rfl, follows⟩ := h
    cases items with
    | cons i items =>
        cases i with
        | symbol c =>
            refine Or.inl ⟨c, _, rfl, items, bodies, us, others, rfl, ?_, ?_, follows⟩
            · exact fun none => absurd none (Option.some_ne_none _)
            · simp [OpenRule.addSymbol, Item.names]
        | epsilon =>
            refine Or.inr (Or.inl ⟨_, rfl, items, bodies, us, others, rfl, ?_, ?_, follows⟩)
            · exact fun none => absurd none (Option.some_ne_none _)
            · simp [OpenRule.addEpsilon, Item.names]
    | nil =>
        cases body : r.body with
        | none => exact absurd rfl (nonempty body)
        | some b =>
            have next : r.nextBody? = some ⟨r.head, r.bodies.push b.toList, none⟩ := by
              rw [OpenRule.nextBody?, body, Option.map_some]
            cases bodies with
            | nil =>
                refine Or.inr (Or.inr (Or.inr ⟨_, others, ?_, rfl, follows⟩))
                simp [OpenRule.finish?, next, Item.names]
            | cons b' bodies =>
                refine Or.inr (Or.inr (Or.inl ⟨_, _, next, ?_, b'.items, bodies, us, others, rfl,
                  ?_, ?_, follows⟩))
                · simp [barred_cons, WrittenBody.tokens]
                · exact fun _ => List.cons_ne_nil _ _
                · simp [WrittenBody.names, Item.names]
  · intro h
    rcases h with ⟨c, _, rfl, items, bodies, us, others, rfl, _, rfl, follows⟩ |
      ⟨_, rfl, items, bodies, us, others, rfl, _, rfl, follows⟩ |
      ⟨next, _, advances, rfl, items, bodies, us, others, rfl, nonempty, rfl, follows⟩ |
      ⟨rule, others, finishes, rfl, follows⟩
    · refine ⟨.symbol c :: items, bodies, us, others, rfl, ?_, ?_, follows⟩
      · exact fun _ => List.cons_ne_nil _ _
      · simp [OpenRule.addSymbol, Item.names]
    · refine ⟨.epsilon :: items, bodies, us, others, rfl, ?_, ?_, follows⟩
      · exact fun _ => List.cons_ne_nil _ _
      · simp [OpenRule.addEpsilon, Item.names]
    · obtain ⟨b, body, rfl⟩ := Option.map_eq_some_iff.mp advances
      obtain ⟨first, rest, rfl⟩ := List.exists_cons_of_ne_nil (nonempty rfl)
      refine ⟨[], ⟨first, rest⟩ :: bodies, us, others, ?_, ?_, ?_, follows⟩
      · simp [barred_cons, WrittenBody.tokens, WrittenBody.items]
      · exact fun none => absurd (none.symm.trans body) (by simp)
      · simp [body, WrittenBody.names, WrittenBody.items, Item.names]
    · obtain ⟨next, advances, rfl⟩ := Option.map_eq_some_iff.mp finishes
      obtain ⟨b, body, rfl⟩ := Option.map_eq_some_iff.mp advances
      refine ⟨[], [], ts, others, rfl, ?_, ?_, follows⟩
      · exact fun none => absurd (none.symm.trans body) (by simp)
      · simp [body, Item.names]

theorem Following.head?_ne_arrow (h : Following ts rs) : ts.head? ≠ some .arrow := by
  rcases following_iff.mp h with ⟨rfl, _⟩ | ⟨us, rfl, _⟩ | ⟨c, us, rfl, _⟩
  all_goals simp

theorem Completes.head?_ne_arrow (h : Completes r ts rs) : ts.head? ≠ some .arrow := by
  rcases completes_iff.mp h with ⟨c, us, rfl, _⟩ | ⟨us, rfl, _⟩ | ⟨_, us, _, rfl, _⟩ |
    ⟨_, _, _, _, follows⟩
  · simp
  · simp
  · simp
  · exact follows.head?_ne_arrow

theorem following_nil : Following [] rs ↔ rs = [] := by
  rw [following_iff]
  simp

theorem following_semicolon : Following (.semicolon :: ts) rs ↔ Following ts rs := by
  rw [following_iff]
  simp

theorem following_head {c : Char} :
    Following (.symbol c :: .arrow :: ts) rs ↔ Completes (.ofHead c) ts rs := by
  rw [following_iff]
  simp [and_assoc]

theorem not_following_of_ne {t : Token} (noSemicolon : t ≠ .semicolon)
    (noSymbol : ∀ c, t ≠ .symbol c) : ¬ Following (t :: ts) rs := by
  rw [following_iff]
  simp [noSemicolon, noSymbol]

/-- A symbol that has no arrow is no head. -/
theorem not_following_symbol {c : Char} (other : ts.head? ≠ some .arrow) :
    ¬ Following (.symbol c :: ts) rs := by
  intro h
  rcases following_iff.mp h with ⟨no, _⟩ | ⟨us, no, _⟩ | ⟨d, us, same, _⟩
  · cases no
  · cases no
  · cases same
    exact other rfl

/-- A symbol that has no arrow belongs to the body. -/
theorem completes_symbol {c : Char} (other : ts.head? ≠ some .arrow) :
    Completes r (.symbol c :: ts) rs ↔ Completes (r.addSymbol c) ts rs := by
  rw [completes_iff]
  simp [not_following_symbol other, and_assoc]

theorem completes_epsilon : Completes r (.epsilon :: ts) rs ↔ Completes r.addEpsilon ts rs := by
  rw [completes_iff]
  simp [not_following_of_ne]

theorem completes_bar :
    Completes r (.bar :: ts) rs ↔ ∃ next, r.nextBody? = some next ∧ Completes next ts rs := by
  rw [completes_iff]
  simp [not_following_of_ne]

/-- Tokens that end a rule: none, a semicolon, or the head of the next rule. -/
def EndsRule : List Token → Prop
  | [] => True
  | .semicolon :: _ => True
  | .symbol _ :: .arrow :: _ => True
  | _ => False

/-- The rules that are finished when the open one, if any, is closed. -/
def closing? : Option OpenRule → Option (List Rule)
  | none => some []
  | some r => r.finish?.map fun rule => [rule]

/-- At the end of a rule the open rule has to be finished. -/
theorem continues_iff_of_endsRule (h : EndsRule ts) :
    Continues opened ts rs ↔
      ∃ closed others, closing? opened = some closed ∧ rs = closed ++ others ∧
        Following ts others := by
  cases opened with
  | none => simp [Continues, closing?]
  | some r =>
      rw [Continues, completes_iff]
      constructor
      · intro step
        rcases step with ⟨c, us, rfl, rest⟩ | ⟨us, rfl, _⟩ | ⟨_, us, _, rfl, _⟩ |
          ⟨rule, others, finishes, rfl, follows⟩
        · -- A symbol ends the rule only with an arrow behind it.
          have no := rest.head?_ne_arrow
          cases us with
          | nil => exact h.elim
          | cons t us =>
              cases t with
              | arrow => exact absurd rfl no
              | _ => exact h.elim
        · exact h.elim
        · exact h.elim
        · exact ⟨[rule], others, by simp [closing?, finishes], rfl, follows⟩
      · intro step
        obtain ⟨closed, others, closes, rfl, follows⟩ := step
        obtain ⟨rule, finishes, rfl⟩ := Option.map_eq_some_iff.mp closes
        exact Or.inr (Or.inr (Or.inr ⟨rule, others, finishes, rfl, follows⟩))

end Tokens

section Run

/-- A reading that starts from some finished rules ends without a fault exactly if there are
rules that are accepted, and then adds such rules to the finished ones. -/
structure Agrees (reading : Reading) (done : List Rule) (Accepts : List Rule → Prop) : Prop where
  sound : reading.fault = none → ∃ rs, Accepts rs ∧ reading.rules = done ++ rs
  complete : ∀ rs, Accepts rs → reading.fault = none

variable {reading : Reading} {done : List Rule} {A B : List Rule → Prop}

theorem Agrees.congr (h : Agrees reading done A) (same : ∀ rs, B rs ↔ A rs) :
    Agrees reading done B := by
  have eq : B = A := funext fun rs => propext (same rs)
  rwa [eq]

theorem Agrees.prepend {closed : List Rule} (h : Agrees reading (done ++ closed) A) :
    Agrees reading done fun rs => ∃ others, rs = closed ++ others ∧ A others where
  sound := by
    intro right
    obtain ⟨others, accepted, rules⟩ := h.sound right
    exact ⟨closed ++ others, ⟨others, rfl, accepted⟩, by rw [rules, List.append_assoc]⟩
  complete := by
    intro rs accepted
    obtain ⟨others, _, accepted⟩ := accepted
    exact h.complete others accepted

theorem Agrees.of_fault {e : SyntaxError} (none : ∀ rs, ¬ A rs) :
    Agrees ⟨done, some e⟩ done A where
  sound := fun right => nomatch right
  complete := fun rs accepted => absurd accepted (none rs)

theorem closeRule_eq_ok {position : Nat} {done rules : Array Rule}
    (h : closeRule position done opened = .ok rules) :
    ∃ closed, closing? opened = some closed ∧ rules.toList = done.toList ++ closed := by
  cases opened with
  | none =>
      cases h
      exact ⟨[], rfl, (List.append_nil _).symm⟩
  | some r =>
      rw [closeRule] at h
      cases finishes : r.finish? with
      | none =>
          rw [finishes] at h
          cases h
      | some rule =>
          rw [finishes] at h
          cases h
          exact ⟨[rule], by simp [closing?, finishes], by simp⟩

theorem closeRule_eq_error {position : Nat} {done : Array Rule} {e : SyntaxError}
    (h : closeRule position done opened = .error e) : closing? opened = none := by
  cases opened with
  | none => cases h
  | some r =>
      rw [closeRule] at h
      cases finishes : r.finish? with
      | none => simp [closing?, finishes]
      | some rule =>
          rw [finishes] at h
          cases h

/-- At the end of a rule the reader closes the open rule and goes on between rules. -/
theorem Agrees.of_closeRule {position : Nat} {done rules : Array Rule} (ends : EndsRule ts)
    (h : closeRule position done opened = .ok rules)
    (rest : Agrees reading rules.toList (Following ts)) :
    Agrees reading done.toList (Continues opened ts) := by
  obtain ⟨closed, closes, finished⟩ := closeRule_eq_ok h
  rw [finished] at rest
  apply rest.prepend.congr
  intro rs
  rw [continues_iff_of_endsRule ends, closes]
  simp

theorem not_continues_of_closeRule {position : Nat} {done : Array Rule} {e : SyntaxError}
    (ends : EndsRule ts) (h : closeRule position done opened = .error e) (rs : List Rule) :
    ¬ Continues opened ts rs := by
  rw [continues_iff_of_endsRule ends, closeRule_eq_error h]
  simp

theorem head?_ne_arrow_of_forall {lexemes : List Lexeme} {c : Char}
    (other : ∀ (d : Char) (start stop : Nat) (rest : List Lexeme),
      lexemes = ⟨.arrow, start, stop⟩ :: rest → Token.symbol c = .symbol d → False) :
    (lexemes.map Lexeme.token).head? ≠ some .arrow := by
  cases lexemes with
  | nil => simp
  | cons x rest =>
      intro arrow
      have token : x.token = .arrow := Option.some.inj arrow
      apply other c x.start x.stop rest _ rfl
      rw [← token]

/-- The reader accepts the continuations of its state and nothing else. -/
theorem agrees_readOnto (size : Nat) (done : Array Rule) (opened : Option OpenRule)
    (lexemes : List Lexeme) :
    Agrees (readOnto size done opened lexemes) done.toList
      (Continues opened (lexemes.map Lexeme.token)) := by
  fun_induction readOnto size done opened lexemes with
  | case1 done opened rules closed =>
      refine .of_closeRule trivial closed ?_
      exact ⟨fun _ => ⟨[], following_nil.mpr rfl, (List.append_nil _).symm⟩, fun _ _ => rfl⟩
  | case2 done opened e closed => exact .of_fault (not_continues_of_closeRule trivial closed)
  | case3 done opened c _ _ _ _ rest rules closed ih =>
      refine .of_closeRule trivial closed ?_
      exact ih.congr fun rs => following_head
  | case4 done opened c _ _ _ _ rest e closed =>
      exact .of_fault (not_continues_of_closeRule trivial closed)
  | case5 done opened _ _ rest rules closed _ ih =>
      rw [closed]
      refine .of_closeRule trivial closed ?_
      exact ih.congr fun rs => following_semicolon
  | case6 done opened _ _ rest e closed =>
      rw [closed]
      exact .of_fault (not_continues_of_closeRule trivial closed)
  | case7 done _ _ rest c r other ih =>
      exact ih.congr fun rs => completes_symbol (head?_ne_arrow_of_forall other)
  | case8 done _ _ rest r _ ih => exact ih.congr fun rs => completes_epsilon
  | case9 done _ _ rest r next advances _ ih =>
      apply ih.congr
      intro rs
      exact completes_bar.trans (by simp [advances, Continues])
  | case10 done _ _ rest r stuck =>
      apply Agrees.of_fault
      intro rs completes
      obtain ⟨next, advances, _⟩ := completes_bar.mp completes
      cases stuck.symm.trans advances
  | case11 done _ _ rest r =>
      exact .of_fault fun rs completes => Completes.head?_ne_arrow completes rfl
  | case12 done _ _ c other =>
      exact .of_fault fun rs => not_following_symbol (head?_ne_arrow_of_forall other)
  | case13 done _ _ c found tail other =>
      exact .of_fault fun rs => not_following_symbol (head?_ne_arrow_of_forall other)
  | case14 done _ _ rest found noSemicolon noSymbol =>
      exact .of_fault fun rs => not_following_of_ne noSemicolon noSymbol

end Run

/-- The tokens of a source text, without their places. -/
def tokens (source : String) : List Token := (lex source).map Lexeme.token

theorem parse_eq_ok_iff {source : String} {rules : List Rule} :
    parse source = .ok rules ↔ rules ≠ [] ∧
      readOnto source.utf8ByteSize #[] none (lex source) = ⟨rules, none⟩ := by
  rw [parse, read, readRules]
  cases readOnto source.utf8ByteSize #[] none (lex source) with
  | mk found fault =>
      cases fault with
      | some e => simp
      | none =>
          cases found with
          | nil =>
              constructor
              · intro h
                cases h
              · intro h
                exact absurd (Reading.mk.inj h.2).1.symm h.1
          | cons first rest =>
              constructor
              · intro h
                cases h
                exact ⟨List.cons_ne_nil _ _, rfl⟩
              · intro h
                cases h.2
                rfl

/-- The parser returns the rules of the written text whose tokens it is given. -/
theorem parse_eq_ok_iff_exists {source : String} {rules : List Rule} :
    parse source = .ok rules ↔ ∃ text : WrittenText, text.tokens = tokens source ∧
      text.rules = rules := by
  have run := agrees_readOnto source.utf8ByteSize #[] none (lex source)
  rw [parse_eq_ok_iff]
  constructor
  · intro h
    obtain ⟨nonempty, result⟩ := h
    rw [result] at run
    obtain ⟨_, ⟨n, ps, written, rfl⟩, same⟩ := run.sound rfl
    cases ps with
    | nil => exact absurd same nonempty
    | cons first rest => exact ⟨⟨n, first, rest⟩, written.symm, same.symm⟩
  · intro h
    obtain ⟨text, written, rfl⟩ := h
    have follows : Following (tokens source) text.rules :=
      ⟨text.leading, text.first :: text.rest, written.symm, rfl⟩
    have right := run.complete text.rules follows
    obtain ⟨_, ⟨n, ps, again, rfl⟩, same⟩ := run.sound right
    -- The rules found belong to a written text with the same tokens, which is this text.
    obtain ⟨_, unique⟩ := spaced_inj (written.trans again)
    rw [← paragraphs_injective unique] at same
    refine ⟨List.cons_ne_nil _ _, ?_⟩
    cases reading : readOnto source.utf8ByteSize #[] none (lex source) with
    | mk found fault =>
        rw [reading] at same right
        cases right
        cases same
        rfl

/-- The parser accepts exactly the written texts. A text is written in one way only, and the
parser returns its rules in order, each body without its epsilons. -/
theorem parse_accepts_written (source : String) :
    ((∃ rules, parse source = .ok rules) ↔ ∃ text : WrittenText, text.tokens = tokens source) ∧
    ∀ text : WrittenText, text.tokens = tokens source →
      parse source = .ok text.rules ∧
        ∀ other : WrittenText, other.tokens = tokens source → other = text := by
  constructor
  · constructor
    · intro h
      obtain ⟨rules, accepted⟩ := h
      obtain ⟨text, written, _⟩ := parse_eq_ok_iff_exists.mp accepted
      exact ⟨text, written⟩
    · intro h
      obtain ⟨text, written⟩ := h
      exact ⟨text.rules, parse_eq_ok_iff_exists.mpr ⟨text, written, rfl⟩⟩
  · intro text written
    refine ⟨parse_eq_ok_iff_exists.mpr ⟨text, written, rfl⟩, ?_⟩
    intro other same
    exact WrittenText.tokens_injective (same.trans written.symm)

example : parse "S->aεb|T T->c;" =
    .ok [⟨"S", [["a", "b"], ["T"]]⟩, ⟨"T", [["c"]]⟩] := by cbv

end ContextFree.Source
