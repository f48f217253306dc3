import ContextFree.Source.Rule

/-!
# How rules are written

A written text is any number of semicolons and then one or more rules, each followed by any
number of semicolons. A rule is a head, an arrow and one or more bodies with bars between
them, and a body is one or more items. Since no separator is needed between rules, a symbol
belongs to a body or is the next head; the arrow behind it tells which. Hence the tokens of a
written text determine all of its parts.

## Main statements

* `WrittenText.tokens_injective`: different written texts have different tokens.
-/

namespace ContextFree.Source

/-- A symbol or an epsilon in a body. -/
inductive Item where
  | symbol (c : Char)
  | epsilon
  deriving DecidableEq, Repr

namespace Item

def token : Item → Token
  | symbol c => .symbol c
  | epsilon => .epsilon

/-- The names of the symbols among items. Epsilons add nothing. -/
def names : List Item → List String
  | [] => []
  | symbol c :: rest => String.singleton c :: names rest
  | epsilon :: rest => names rest

theorem token_injective {i j : Item} (h : i.token = j.token) : i = j := by
  cases i with
  | symbol c =>
      cases j with
      | symbol d => exact congrArg _ (Token.symbol.inj h)
      | epsilon => cases h
  | epsilon =>
      cases j with
      | symbol d => cases h
      | epsilon => rfl

end Item

/-- A body as it is written: one or more items. -/
@[ext]
structure WrittenBody where
  first : Item
  rest : List Item
  deriving DecidableEq, Repr

namespace WrittenBody

def items (b : WrittenBody) : List Item := b.first :: b.rest

def tokens (b : WrittenBody) : List Token := b.items.map Item.token

def names (b : WrittenBody) : List String := Item.names b.items

end WrittenBody

/-- Bodies with a bar before each. -/
def barred (bodies : List WrittenBody) : List Token := bodies.flatMap fun b => .bar :: b.tokens

/-- A rule as it is written: a head and one or more bodies. -/
@[ext]
structure WrittenRule where
  head : Char
  first : WrittenBody
  rest : List WrittenBody
  deriving DecidableEq, Repr

namespace WrittenRule

def tokens (r : WrittenRule) : List Token :=
  .symbol r.head :: .arrow :: (r.first.tokens ++ barred r.rest)

def rule (r : WrittenRule) : Rule :=
  ⟨String.singleton r.head, (r.first :: r.rest).map WrittenBody.names⟩

end WrittenRule

/-- A rule and the number of semicolons after it. -/
abbrev Paragraph := WrittenRule × Nat

/-- Rules, each with the semicolons after it. -/
def paragraphs (ps : List Paragraph) : List Token :=
  ps.flatMap fun p => p.1.tokens ++ List.replicate p.2 .semicolon

/-- Semicolons and then rules. -/
def spaced (n : Nat) (ps : List Paragraph) : List Token :=
  List.replicate n .semicolon ++ paragraphs ps

/-- A text as it is written: semicolons and then one or more rules. -/
@[ext]
structure WrittenText where
  leading : Nat
  first : Paragraph
  rest : List Paragraph
  deriving DecidableEq, Repr

namespace WrittenText

def tokens (t : WrittenText) : List Token := spaced t.leading (t.first :: t.rest)

def rules (t : WrittenText) : List Rule := (t.first :: t.rest).map fun p => p.1.rule

end WrittenText

section Unique

variable {ts us : List Token}

theorem paragraphs_cons (p : Paragraph) (ps : List Paragraph) :
    paragraphs (p :: ps) =
      .symbol p.1.head :: .arrow :: (p.1.first.tokens ++ (barred p.1.rest ++ spaced p.2 ps)) := by
  simp [paragraphs, spaced, WrittenRule.tokens]

theorem spaced_succ (n : Nat) (ps : List Paragraph) :
    spaced (n + 1) ps = .semicolon :: spaced n ps := rfl

theorem barred_cons (b : WrittenBody) (bs : List WrittenBody) :
    barred (b :: bs) = .bar :: (b.tokens ++ barred bs) := by
  simp [barred]

/-- Tokens that can follow a body: none, a bar, a semicolon or a head with its arrow. -/
def EndsBody : List Token → Prop
  | [] => True
  | .bar :: _ => True
  | .semicolon :: _ => True
  | .symbol _ :: .arrow :: _ => True
  | _ => False

theorem endsBody_spaced (n : Nat) (ps : List Paragraph) : EndsBody (spaced n ps) := by
  cases n with
  | zero =>
      cases ps with
      | nil => exact trivial
      | cons p ps =>
          change EndsBody (paragraphs (p :: ps))
          rw [paragraphs_cons]
          exact trivial
  | succ n => exact trivial

theorem endsBody_barred_spaced (bs : List WrittenBody) (n : Nat) (ps : List Paragraph) :
    EndsBody (barred bs ++ spaced n ps) := by
  cases bs with
  | nil => exact endsBody_spaced n ps
  | cons b bs =>
      rw [barred_cons]
      exact trivial

/-- An item goes on with its body: no arrow can come next. -/
theorem not_endsBody_items (h : EndsBody ts) (i : Item) (items : List Item) :
    ¬ EndsBody (i.token :: (items.map Item.token ++ ts)) := by
  cases i with
  | epsilon => exact id
  | symbol c =>
      intro ends
      cases items with
      | nil =>
          cases ts with
          | nil => exact ends
          | cons t ts =>
              cases t with
              | arrow => exact h
              | _ => exact ends
      | cons j items =>
          cases j with
          | symbol d => exact ends
          | epsilon => exact ends

/-- A body extends as far as its items go. -/
theorem items_append_inj {xs ys : List Item} (hts : EndsBody ts) (hus : EndsBody us)
    (h : xs.map Item.token ++ ts = ys.map Item.token ++ us) : xs = ys ∧ ts = us := by
  induction xs generalizing ys with
  | nil =>
      cases ys with
      | nil => exact ⟨rfl, h⟩
      | cons y ys =>
          change ts = y.token :: (ys.map Item.token ++ us) at h
          exact absurd (h ▸ hts) (not_endsBody_items hus y ys)
  | cons x xs ih =>
      cases ys with
      | nil =>
          change x.token :: (xs.map Item.token ++ ts) = us at h
          exact absurd (h ▸ hus) (not_endsBody_items hts x xs)
      | cons y ys =>
          obtain ⟨first, rest⟩ := List.cons.inj h
          obtain ⟨same, tails⟩ := ih rest
          exact ⟨by rw [Item.token_injective first, same], tails⟩

theorem body_append_inj {b c : WrittenBody} (hts : EndsBody ts) (hus : EndsBody us)
    (h : b.tokens ++ ts = c.tokens ++ us) : b = c ∧ ts = us := by
  obtain ⟨items, tails⟩ := items_append_inj hts hus h
  obtain ⟨first, rest⟩ := List.cons.inj items
  exact ⟨WrittenBody.ext first rest, tails⟩

/-- The tokens between and after rules begin with no bar. -/
theorem spaced_ne_bar {n : Nat} {ps : List Paragraph} : spaced n ps ≠ .bar :: ts := by
  cases n with
  | zero =>
      cases ps with
      | nil => exact List.cons_ne_nil _ _ ∘ Eq.symm
      | cons p ps =>
          change paragraphs (p :: ps) ≠ _
          rw [paragraphs_cons]
          simp
  | succ n =>
      rw [spaced_succ]
      simp

theorem barred_append_inj {bs cs : List WrittenBody} {m n : Nat} {ps qs : List Paragraph}
    (h : barred bs ++ spaced m ps = barred cs ++ spaced n qs) :
    bs = cs ∧ spaced m ps = spaced n qs := by
  induction bs generalizing cs with
  | nil =>
      cases cs with
      | nil => exact ⟨rfl, h⟩
      | cons c cs =>
          rw [barred_cons] at h
          exact absurd h spaced_ne_bar
  | cons b bs ih =>
      cases cs with
      | nil =>
          rw [barred_cons] at h
          exact absurd h.symm spaced_ne_bar
      | cons c cs =>
          rw [barred_cons, barred_cons, List.cons_append, List.cons_append, List.append_assoc,
            List.append_assoc] at h
          obtain ⟨first, rest⟩ := body_append_inj (endsBody_barred_spaced bs m ps)
            (endsBody_barred_spaced cs n qs) (List.cons.inj h).2
          obtain ⟨same, tails⟩ := ih rest
          exact ⟨by rw [first, same], tails⟩

theorem paragraphs_ne_semicolon {ps : List Paragraph} : paragraphs ps ≠ .semicolon :: ts := by
  cases ps with
  | nil => exact List.cons_ne_nil _ _ ∘ Eq.symm
  | cons p ps =>
      rw [paragraphs_cons]
      simp

/-- The semicolons before the next rule are counted in one way only. -/
theorem spaced_inj {m n : Nat} {ps qs : List Paragraph} (h : spaced m ps = spaced n qs) :
    m = n ∧ paragraphs ps = paragraphs qs := by
  induction m generalizing n with
  | zero =>
      cases n with
      | zero => exact ⟨rfl, h⟩
      | succ n => exact absurd h paragraphs_ne_semicolon
  | succ m ih =>
      cases n with
      | zero => exact absurd h.symm paragraphs_ne_semicolon
      | succ n =>
          obtain ⟨same, rest⟩ := ih (List.cons.inj h).2
          exact ⟨congrArg (· + 1) same, rest⟩

theorem paragraphs_injective {ps qs : List Paragraph} (h : paragraphs ps = paragraphs qs) :
    ps = qs := by
  induction ps generalizing qs with
  | nil =>
      cases qs with
      | nil => rfl
      | cons q qs =>
          rw [paragraphs_cons] at h
          cases h
  | cons p ps ih =>
      cases qs with
      | nil =>
          rw [paragraphs_cons] at h
          cases h
      | cons q qs =>
          rw [paragraphs_cons, paragraphs_cons] at h
          obtain ⟨head, h⟩ := List.cons.inj h
          obtain ⟨first, h⟩ := body_append_inj (endsBody_barred_spaced _ _ _)
            (endsBody_barred_spaced _ _ _) (List.cons.inj h).2
          obtain ⟨bodies, h⟩ := barred_append_inj h
          obtain ⟨semicolons, h⟩ := spaced_inj h
          have rule : p.1 = q.1 := WrittenRule.ext (Token.symbol.inj head) first bodies
          have same : p = q := Prod.ext rule semicolons
          rw [same, ih h]

end Unique

/-- A text is written in one way only. -/
theorem WrittenText.tokens_injective {t u : WrittenText} (h : t.tokens = u.tokens) : t = u := by
  obtain ⟨leading, same⟩ := spaced_inj h
  obtain ⟨first, rest⟩ := List.cons.inj (paragraphs_injective same)
  exact WrittenText.ext leading first rest

end ContextFree.Source
