import ContextFree.Proofs.Source.LongestMatch

/-!
# The tokens of a source text

A source text is lost nowhere between its tokens: their ranges of bytes are not empty and follow one
another, every byte outside them is a blank, and every range holds the text of its token. With the
rule that a minus and a greater-than sign that touch are an arrow, these properties determine the
tokens of a text.

## Main statements

* `tokenizes_iff`: the tokens of scanning are the only ones with these properties.
* `lex_tokenizes`: the same for a whole source text, with no fault by longest match.
-/

namespace ContextFree.Source

/-- A text spells a token. -/
inductive Spells : List Char → Token → Prop
  | arrow : Spells ['-', '>'] .arrow
  | bar : Spells ['|'] .bar
  | semicolon : Spells [';'] .semicolon
  | epsilon : Spells ['ε'] .epsilon
  | lunateEpsilon : Spells ['ϵ'] .epsilon
  | symbol {c : Char} (noBlank : isBlank c = false) (noBar : c ≠ '|') (noSemicolon : c ≠ ';')
      (noEpsilon : isEpsilon c = false) : Spells [c] (.symbol c)

/-- The bytes of characters in UTF-8. -/
def encode (cs : List Char) : List UInt8 := cs.flatMap String.utf8EncodeChar

/-- The bytes of a source text. -/
def bytes (source : String) : List UInt8 := source.toByteArray.data.toList

/-- Space, tab, carriage return, line feed and form feed. -/
def blankBytes : List UInt8 := [0x20, 0x09, 0x0d, 0x0a, 0x0c]

/-- The tokens account for all bytes from a given one on. -/
structure Tokenizes (bs : List UInt8) (start : Nat) (ts : List Lexeme) : Prop where
  begins : ∀ x ∈ ts, start ≤ x.start
  nonempty : ∀ x ∈ ts, x.start < x.stop
  inside : ∀ x ∈ ts, x.stop ≤ bs.length
  ordered : ts.Pairwise fun x y => x.stop ≤ y.start
  blank : ∀ i b, bs[i]? = some b → start ≤ i → (∀ x ∈ ts, i < x.start ∨ x.stop ≤ i) →
    b ∈ blankBytes
  spelt : ∀ x ∈ ts, ∃ w, Spells w x.token ∧ bs.extract x.start x.stop = encode w
  noSplitArrow : ∀ x ∈ ts, ∀ y ∈ ts, x.token = .symbol '-' → y.token = .symbol '>' →
    x.stop ≠ y.start

section Encode

variable {source : String} {b : UInt8} {c : Char} {v cs ds : List Char}

theorem bytes_eq : bytes source = encode source.toList := by
  rw [bytes, ← String.utf8Encode_toList, List.utf8Encode, List.data_toByteArray]
  rfl

theorem encode_cons : encode (c :: cs) = String.utf8EncodeChar c ++ encode cs := rfl

theorem encode_append : encode (cs ++ ds) = encode cs ++ encode ds := List.flatMap_append

theorem length_encode : (encode cs).length = byteSize cs := by
  induction cs with
  | nil => rfl
  | cons c cs ih =>
      rw [encode_cons, List.length_append, String.length_utf8EncodeChar, ih, byteSize_cons]

/-- No character's bytes begin with those of another one. -/
theorem isPrefix_of_encode (before : encode v <+: encode cs) : v <+: cs := by
  obtain ⟨later, split⟩ := before
  refine List.isPrefix_of_utf8Encode_append_eq_utf8Encode later.toByteArray ?_
  rw [List.utf8Encode, List.utf8Encode, ← List.toByteArray_append]
  exact congrArg List.toByteArray split

theorem drop_encode {bs : List UInt8} {start : Nat} (suffix : bs.drop start = encode (v ++ cs)) :
    bs.drop (start + byteSize v) = encode cs := by
  rw [← List.drop_drop, suffix, encode_append, ← length_encode, List.drop_left]

theorem exists_blankByte (blank : isBlank c = true) :
    ∃ b ∈ blankBytes, String.utf8EncodeChar c = [b] := by
  simp only [isBlank, Bool.or_eq_true, decide_eq_true_iff] at blank
  rcases blank with (((rfl | rfl) | rfl) | rfl) | rfl
  · exact ⟨0x20, by decide, by decide⟩
  · exact ⟨0x09, by decide, by decide⟩
  · exact ⟨0x0d, by decide, by decide⟩
  · exact ⟨0x0a, by decide, by decide⟩
  · exact ⟨0x0c, by decide, by decide⟩

theorem exists_blank_of_mem_blankBytes (h : b ∈ blankBytes) :
    ∃ c, isBlank c = true ∧ String.utf8EncodeChar c = [b] := by
  simp only [blankBytes, List.mem_cons, List.not_mem_nil, or_false] at h
  rcases h with rfl | rfl | rfl | rfl | rfl
  · exact ⟨' ', by decide, by decide⟩
  · exact ⟨'\t', by decide, by decide⟩
  · exact ⟨'\r', by decide, by decide⟩
  · exact ⟨'\n', by decide, by decide⟩
  · exact ⟨'\x0c', by decide, by decide⟩

theorem exists_head?_encode : ∃ b, (encode (c :: cs)).head? = some b := by
  cases found : encode (c :: cs) with
  | nil =>
      have size : (encode (c :: cs)).length = c.utf8Size + byteSize cs := by
        rw [length_encode, byteSize_cons]
      have positive := c.utf8Size_pos
      rw [found, List.length_nil] at size
      omega
  | cons b others => exact ⟨b, rfl⟩

/-- Only a blank begins with a byte of a blank. -/
theorem isBlank_of_head? (first : (encode (c :: cs)).head? = some b) (h : b ∈ blankBytes) :
    isBlank c = true := by
  obtain ⟨d, blank, single⟩ := exists_blank_of_mem_blankBytes h
  obtain ⟨later, split⟩ := List.head?_eq_some_iff.mp first
  have before : encode [d] <+: encode (c :: cs) := by
    rw [split, encode, List.flatMap_singleton, single]
    exact ⟨later, rfl⟩
  obtain ⟨rfl, _⟩ := List.cons_prefix_cons.mp (isPrefix_of_encode before)
  exact blank

end Encode

section Spells

variable {c : Char} {w rest : List Char} {t : Token}

/-- The text of a token begins with no blank. -/
theorem Spells.exists_cons (h : Spells w t) : ∃ c v, w = c :: v ∧ isBlank c = false := by
  cases h with
  | symbol noBlank => exact ⟨_, [], rfl, noBlank⟩
  | _ => exact ⟨_, _, rfl, by decide⟩

theorem spells_single_iff : Spells [c] t ↔ Token.ofChar? c = some t := by
  constructor
  · intro h
    cases h with
    | symbol noBlank noBar noSemicolon noEpsilon =>
        simp [Token.ofChar?, noBlank, noBar, noSemicolon, noEpsilon]
    | _ => rfl
  · intro spelt
    unfold Token.ofChar? at spelt
    split_ifs at spelt with blank bar semicolon epsilon
    · obtain rfl := Option.some.inj spelt
      exact bar ▸ .bar
    · obtain rfl := Option.some.inj spelt
      exact semicolon ▸ .semicolon
    · obtain rfl := Option.some.inj spelt
      rcases isEpsilon_iff.mp epsilon with rfl | rfl
      · exact .epsilon
      · exact .lunateEpsilon
    · obtain rfl := Option.some.inj spelt
      exact .symbol (Bool.not_eq_true _ ▸ blank) bar semicolon (Bool.not_eq_true _ ▸ epsilon)

/-- The text of a token is an arrow or a single character. -/
theorem Spells.eq_arrow_or_single (h : Spells w t) :
    (w = ['-', '>'] ∧ t = .arrow) ∨ ∃ c, w = [c] ∧ Token.ofChar? c = some t := by
  cases h with
  | arrow => exact Or.inl ⟨rfl, rfl⟩
  | symbol noBlank noBar noSemicolon noEpsilon =>
      exact Or.inr ⟨_, rfl, spells_single_iff.mp (.symbol noBlank noBar noSemicolon noEpsilon)⟩
  | _ => exact Or.inr ⟨_, rfl, rfl⟩

theorem Spells.eq_of_symbol (h : Spells w (.symbol c)) : w = [c] := by
  cases h
  rfl

theorem Spells.byteSize_pos (h : Spells w t) : 0 < byteSize w := by
  obtain ⟨c, v, rfl, _⟩ := h.exists_cons
  rw [byteSize_cons]
  exact Nat.add_pos_left c.utf8Size_pos _

end Spells

namespace Tokenizes

variable {bs : List UInt8} {start : Nat} {cs rest w : List Char} {ts us : List Lexeme}
  {x : Lexeme} {t : Token} {c : Char} {b : UInt8}

/-- A token's text begins the text from the token on, and is as long as its range. -/
theorem exists_isPrefix (h : Tokenizes bs start ts) (hx : x ∈ ts)
    (suffix : bs.drop x.start = encode cs) :
    ∃ w, Spells w x.token ∧ w <+: cs ∧ x.stop = x.start + byteSize w := by
  obtain ⟨w, spells, spelt⟩ := h.spelt x hx
  have nonempty := h.nonempty x hx
  have inside := h.inside x hx
  rw [List.extract_eq_take_drop, suffix] at spelt
  refine ⟨w, spells, isPrefix_of_encode ?_, ?_⟩
  · rw [← spelt]
    exact List.take_prefix _ _
  · have long := congrArg List.length suffix
    rw [List.length_drop] at long
    rw [← length_encode, ← spelt, List.length_take]
    omega

/-- The first character of a text is in the range of a token unless it is a blank. -/
theorem exists_covering (h : Tokenizes bs start ts) (suffix : bs.drop start = encode (c :: rest))
    (noBlank : isBlank c = false) : ∃ x ∈ ts, x.start ≤ start ∧ start < x.stop := by
  by_contra none
  obtain ⟨b, first⟩ : ∃ b, (encode (c :: rest)).head? = some b := exists_head?_encode
  have byte : bs[start]? = some b := by
    rw [← List.head?_drop, suffix, first]
  have blank : b ∈ blankBytes := by
    refine h.blank start b byte (Nat.le_refl _) ?_
    intro x hx
    by_contra inside
    exact none ⟨x, hx, by omega, by omega⟩
  rw [isBlank_of_head? first blank] at noBlank
  cases noBlank

/-- What remains after the first token. -/
theorem tail (h : Tokenizes bs start (x :: us)) : Tokenizes bs x.stop us := by
  obtain ⟨before, ordered⟩ := List.pairwise_cons.mp h.ordered
  obtain ⟨nonempty, others⟩ := List.forall_mem_cons.mp h.nonempty
  have begins := h.begins x List.mem_cons_self
  refine ⟨before, others, fun y hy => h.inside y (List.mem_cons_of_mem _ hy), ordered, ?_,
    fun y hy => h.spelt y (List.mem_cons_of_mem _ hy),
    fun y hy z hz => h.noSplitArrow y (List.mem_cons_of_mem _ hy) z (List.mem_cons_of_mem _ hz)⟩
  intro i b byte after outside
  refine h.blank i b byte (by omega) ?_
  exact List.forall_mem_cons.mpr ⟨Or.inr after, outside⟩

/-- The first token of a text that begins with no blank. -/
theorem exists_head (h : Tokenizes bs start ts) (suffix : bs.drop start = encode (c :: rest))
    (noBlank : isBlank c = false) :
    ∃ w t us, ts = ⟨t, start, start + byteSize w⟩ :: us ∧ Spells w t ∧ w <+: c :: rest := by
  obtain ⟨x, hx, low, high⟩ := h.exists_covering suffix noBlank
  obtain rfl : start = x.start := Nat.le_antisymm (h.begins x hx) low
  obtain ⟨w, spells, before, stop⟩ := h.exists_isPrefix hx suffix
  cases ts with
  | nil => cases hx
  | cons y us =>
      -- A token before this one would end where this one begins and be empty.
      rcases List.mem_cons.mp hx with rfl | later
      · exact ⟨w, x.token, us, by rw [← stop], spells, before⟩
      · have ordered := (List.pairwise_cons.mp h.ordered).1 x later
        have begins := h.begins y List.mem_cons_self
        have nonempty := h.nonempty y List.mem_cons_self
        omega

/-- Put a token in front. -/
theorem cons (h : Tokenizes bs (start + byteSize w) us)
    (suffix : bs.drop start = encode (w ++ rest)) (spells : Spells w t)
    (noSplit : t = .symbol '-' → ¬ ['>'] <+: rest) :
    Tokenizes bs start (⟨t, start, start + byteSize w⟩ :: us) := by
  have size := spells.byteSize_pos
  have long : bs.length - start = byteSize w + byteSize rest := by
    rw [← List.length_drop, suffix, encode_append, List.length_append, length_encode, length_encode]
  constructor
  case begins =>
    refine List.forall_mem_cons.mpr ⟨Nat.le_refl _, fun y hy => ?_⟩
    exact Nat.le_trans (Nat.le_add_right _ _) (h.begins y hy)
  case nonempty =>
    exact List.forall_mem_cons.mpr ⟨Nat.lt_add_of_pos_right size, h.nonempty⟩
  case inside =>
    refine List.forall_mem_cons.mpr ⟨?_, h.inside⟩
    show start + byteSize w ≤ bs.length
    omega
  case ordered => exact List.pairwise_cons.mpr ⟨h.begins, h.ordered⟩
  case blank =>
    intro i b byte after outside
    obtain ⟨first, others⟩ := List.forall_mem_cons.mp outside
    refine h.blank i b byte ?_ others
    exact first.resolve_left (Nat.not_lt.mpr after)
  case spelt =>
    refine List.forall_mem_cons.mpr ⟨⟨w, spells, ?_⟩, h.spelt⟩
    rw [List.extract_eq_take_drop, suffix, encode_append, Nat.add_sub_cancel_left, ← length_encode,
      List.take_left]
  case noSplitArrow =>
    intro x hx y hy minus greater touch
    rcases List.mem_cons.mp hx with rfl | hx
    · rcases List.mem_cons.mp hy with rfl | hy
      · cases minus.symm.trans greater
      · have remaining : bs.drop y.start = encode rest := touch ▸ drop_encode suffix
        obtain ⟨v, other, before, _⟩ := h.exists_isPrefix hy remaining
        rw [greater] at other
        rw [other.eq_of_symbol] at before
        exact noSplit minus before
    · rcases List.mem_cons.mp hy with rfl | hy
      · have begins := h.begins x hx
        have nonempty := h.nonempty x hx
        change x.stop = start at touch
        omega
      · exact h.noSplitArrow x hx y hy minus greater touch

/-- A blank in front changes nothing. -/
theorem blank_iff (suffix : bs.drop start = encode (c :: rest)) (blank : isBlank c = true) :
    Tokenizes bs start ts ↔ Tokenizes bs (start + c.utf8Size) ts := by
  obtain ⟨b, isBlankByte, single⟩ := exists_blankByte blank
  have size : c.utf8Size = 1 := by
    rw [← String.length_utf8EncodeChar, single, List.length_singleton]
  have first : bs[start]? = some b := by
    rw [← List.head?_drop, suffix, encode_cons, single]
    rfl
  rw [size]
  constructor
  · intro h
    refine { h with begins := fun x hx => ?_, blank := fun i b byte after => ?_ }
    · refine Nat.lt_of_le_of_ne (h.begins x hx) ?_
      rintro rfl
      obtain ⟨w, spells, before, _⟩ := h.exists_isPrefix hx suffix
      obtain ⟨d, v, rfl, noBlank⟩ := spells.exists_cons
      obtain rfl := (List.cons_prefix_cons.mp before).1
      rw [blank] at noBlank
      cases noBlank
    · exact h.blank i b byte (Nat.le_of_succ_le after)
  · intro h
    refine { h with begins := fun x hx => ?_, blank := fun i d byte after outside => ?_ }
    · exact Nat.le_of_succ_le (h.begins x hx)
    · rcases Nat.eq_or_lt_of_le after with rfl | later
      · rw [first] at byte
        obtain rfl := Option.some.inj byte
        exact isBlankByte
      · exact h.blank i d byte later outside

/-- No tokens account for no bytes. -/
theorem nil_iff (suffix : bs.drop start = encode []) : Tokenizes bs start ts ↔ ts = [] := by
  have short : bs.length ≤ start := List.drop_eq_nil_iff.mp suffix
  constructor
  · intro h
    cases ts with
    | nil => rfl
    | cons x us =>
        have begins := h.begins x List.mem_cons_self
        have nonempty := h.nonempty x List.mem_cons_self
        have inside := h.inside x List.mem_cons_self
        omega
  · rintro rfl
    refine ⟨by simp, by simp, by simp, .nil, ?_, by simp, by simp⟩
    intro i b byte after
    rw [List.getElem?_eq_none (Nat.le_trans short after)] at byte
    cases byte

/-- A text that begins with an arrow. -/
theorem arrow_iff (suffix : bs.drop start = encode ('-' :: '>' :: rest)) :
    Tokenizes bs start ts ↔
      ∃ us, ts = ⟨.arrow, start, start + 2⟩ :: us ∧ Tokenizes bs (start + 2) us := by
  constructor
  · intro h
    obtain ⟨w, t, us, rfl, spells, before⟩ := h.exists_head suffix (by decide)
    rcases spells.eq_arrow_or_single with ⟨rfl, rfl⟩ | ⟨d, rfl, minus⟩
    · exact ⟨us, rfl, h.tail⟩
    · -- A symbol that stops within the arrow is followed by one that begins there.
      obtain rfl := (List.cons_prefix_cons.mp before).1
      obtain ⟨v, u, vs, rfl, spells, before⟩ :=
        h.tail.exists_head (drop_encode (v := ['-']) suffix) (by decide)
      rcases spells.eq_arrow_or_single with ⟨rfl, rfl⟩ | ⟨e, rfl, greater⟩
      · cases (List.cons_prefix_cons.mp before).1
      · obtain rfl := (List.cons_prefix_cons.mp before).1
        exact absurd rfl (h.noSplitArrow _ List.mem_cons_self _
          (List.mem_cons_of_mem _ List.mem_cons_self)
          (Option.some.inj minus).symm (Option.some.inj greater).symm)
  · rintro ⟨us, rfl, h⟩
    exact h.cons (w := ['-', '>']) suffix .arrow nofun

/-- A text that begins with a token of a single character. -/
theorem single_iff (suffix : bs.drop start = encode (c :: rest))
    (noArrow : ¬ ['-', '>'] <+: c :: rest) (spelt : Token.ofChar? c = some t) :
    Tokenizes bs start ts ↔
      ∃ us, ts = ⟨t, start, start + c.utf8Size⟩ :: us ∧ Tokenizes bs (start + c.utf8Size) us := by
  have noBlank : isBlank c = false := by
    rw [← Bool.not_eq_true, ← ofChar?_eq_none_iff, spelt]
    exact Option.some_ne_none t
  have size : byteSize [c] = c.utf8Size := Nat.add_zero _
  rw [← size]
  constructor
  · intro h
    obtain ⟨w, u, us, rfl, spells, before⟩ := h.exists_head suffix noBlank
    rcases spells.eq_arrow_or_single with ⟨rfl, rfl⟩ | ⟨d, rfl, same⟩
    · exact absurd before noArrow
    · obtain rfl := (List.cons_prefix_cons.mp before).1
      obtain rfl := Option.some.inj (same.symm.trans spelt)
      exact ⟨us, rfl, h.tail⟩
  · rintro ⟨us, rfl, h⟩
    have spells : Spells [c] t := spells_single_iff.mpr spelt
    refine h.cons (w := [c]) suffix spells ?_
    rintro rfl greater
    obtain rfl := List.singleton_inj.mp spells.eq_of_symbol
    exact noArrow (List.cons_prefix_cons.mpr ⟨rfl, greater⟩)

end Tokenizes

/-- Scanning gives the only tokens that account for all bytes. -/
theorem tokenizes_iff {bs : List UInt8} {start : Nat} {cs : List Char} {ts : List Lexeme}
    (suffix : bs.drop start = encode cs) : Tokenizes bs start ts ↔ ts = scan start cs := by
  induction start, cs using scan.induct generalizing ts with
  | case1 start rest ih =>
      have remaining : bs.drop (start + 2) = encode rest := drop_encode (v := ['-', '>']) suffix
      simp only [Tokenizes.arrow_iff suffix, ih remaining, exists_eq_right, scan]
  | case2 start c rest other t spelt ih =>
      have noArrow : ¬ ['-', '>'] <+: c :: rest := by
        rintro ⟨others, same⟩
        obtain ⟨minus, greater⟩ := List.cons.inj same
        exact other others minus.symm greater.symm
      have remaining : bs.drop (start + c.utf8Size) = encode rest := drop_encode (v := [c]) suffix
      simp only [Tokenizes.single_iff suffix noArrow spelt, ih remaining, exists_eq_right,
        scan_token noArrow spelt]
  | case3 start c rest _ spelt ih =>
      have blank : isBlank c = true := ofChar?_eq_none_iff.mp spelt
      have remaining : bs.drop (start + c.utf8Size) = encode rest := drop_encode (v := [c]) suffix
      rw [Tokenizes.blank_iff suffix blank, ih remaining, scan_blank blank]
  | case4 start => exact Tokenizes.nil_iff suffix

example : scan 0 ['-', '-', '>', 'ε', ' ', '>'] =
    [⟨.symbol '-', 0, 1⟩, ⟨.arrow, 1, 3⟩, ⟨.epsilon, 3, 5⟩, ⟨.symbol '>', 6, 7⟩] := by
  decide

/-- Lexing loses nothing: by longest match there is no fault, and the tokens of a source text are
the only ones that account for all of its bytes. -/
theorem lex_tokenizes (source : String) :
    (∀ results, Lexes 0 source.toList results ↔ results = (lex source).map .ok) ∧
      ∀ ts, Tokenizes (bytes source) 0 ts ↔ ts = lex source := by
  rw [lex_eq_scan]
  refine ⟨fun results => lexes_iff, fun ts => ?_⟩
  exact tokenizes_iff (List.drop_zero.trans bytes_eq)

end ContextFree.Source
