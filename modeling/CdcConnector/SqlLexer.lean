import Mathlib.Algebra.BigOperators.Group.List.Basic
import Mathlib.Algebra.GroupWithZero.Nat
import Mathlib.Data.List.Basic
import Mathlib.Data.List.Count

/-!
# Postgres' lexical rules

Unquoted identifiers fold to lower case and end at the first character that
cannot stand in one; quoted identifiers are literal, with their quotes doubled;
comments and blanks separate. Every quote of a quoted identifier is in the
text, so a text has at least as many quotes as its tokens need.
-/

set_option autoImplicit false

namespace CDC.SqlLexer

inductive Token where
  | ident (name : List Char) (quoted : Bool)
  | param (n : ℕ)
  | constant
  | special (c : Char)
  deriving DecidableEq

/-- Where the lexer is: between tokens, or in one. After a quote in a quoted
identifier it may have ended. -/
inductive Mode where
  | between
  | word (name : List Char)
  | quoted (name : List Char)
  | closing (name : List Char)
  | dollar
  | number (n : ℕ)
  | text
  | dash
  | lineComment
  | slash
  | block (depth : ℕ)
  | blockStar (depth : ℕ)
  | blockSlash (depth : ℕ)
  deriving DecidableEq

def isBlank (c : Char) : Bool :=
  c = ' ' || c = '\t' || c = '\n' || c = '\r' || c = '\x0b' || c = '\x0c'

def identStart (c : Char) : Bool := c.isAlpha || c = '_' || 128 ≤ c.toNat

def identCont (c : Char) : Bool := identStart c || c.isDigit || c = '$'

def unquoted (name : List Char) : Token := .ident (name.map Char.toLower) false

def begin (c : Char) : List Token × Mode :=
  if isBlank c then ([], .between)
  else if identStart c then ([], .word [c])
  else if c = '"' then ([], .quoted [])
  else if c = '$' then ([], .dollar)
  else if c = '\'' then ([], .text)
  else if c = '-' then ([], .dash)
  else if c = '/' then ([], .slash)
  else ([.special c], .between)

def endBefore (t : Token) (c : Char) : List Token × Mode := (t :: (begin c).1, (begin c).2)

def step : Mode → Char → Option (List Token × Mode)
  | .between, c => some (begin c)
  | .word name, c =>
    if identCont c then some ([], .word (name ++ [c])) else some (endBefore (unquoted name) c)
  | .quoted name, c => if c = '"' then some ([], .closing name) else some ([], .quoted (name ++ [c]))
  | .closing name, c =>
    if c = '"' then some ([], .quoted (name ++ ['"']))
    else if name = [] then none
    else some (endBefore (.ident name true) c)
  | .dollar, c =>
    if c.isDigit then some ([], .number (c.toNat - '0'.toNat)) else some (endBefore (.special '$') c)
  | .number n, c =>
    if c.isDigit then some ([], .number (10*n + (c.toNat - '0'.toNat)))
    else if identStart c then none
    else some (endBefore (.param n) c)
  | .text, c => if c = '\'' then some ([.constant], .between) else some ([], .text)
  | .dash, c => if c = '-' then some ([], .lineComment) else some (endBefore (.special '-') c)
  | .lineComment, c => if c = '\n' ∨ c = '\r' then some ([], .between) else some ([], .lineComment)
  | .slash, c => if c = '*' then some ([], .block 0) else some (endBefore (.special '/') c)
  | .block depth, c =>
    if c = '*' then some ([], .blockStar depth)
    else if c = '/' then some ([], .blockSlash depth)
    else some ([], .block depth)
  | .blockStar depth, c =>
    if c = '/' then some ([], if depth = 0 then .between else .block (depth - 1))
    else if c = '*' then some ([], .blockStar depth)
    else some ([], .block depth)
  | .blockSlash depth, c =>
    if c = '*' then some ([], .block (depth + 1))
    else if c = '/' then some ([], .blockSlash depth)
    else some ([], .block depth)

def finish : Mode → Option (List Token)
  | .between => some []
  | .word name => some [unquoted name]
  | .quoted _ => none
  | .closing name => if name = [] then none else some [.ident name true]
  | .dollar => some [.special '$']
  | .number n => some [.param n]
  | .text => none
  | .dash => some [.special '-']
  | .lineComment => some []
  | .slash => some [.special '/']
  | .block _ => none
  | .blockStar _ => none
  | .blockSlash _ => none

def lex : Mode → List Char → Option (List Token)
  | mode, [] => finish mode
  | mode, c::cs => do
    let (toks, mode) ← step mode c
    let rest ← lex mode cs
    return toks ++ rest

/-- The tokens that end in a piece of text, and where it leaves the lexer. -/
def run : Mode → List Char → Option (List Token × Mode)
  | mode, [] => some ([], mode)
  | mode, c::cs => do
    let (toks, next) ← step mode c
    let (rest, last) ← run next cs
    return (toks ++ rest, last)

section Steps

def Mode.Nameless : Mode → Prop
  | word _ => False
  | quoted _ => False
  | closing _ => False
  | _ => True

/-- A character goes on with what is open. -/
inductive Goes (c : Char) : Mode → Mode → Prop where
  | word (name : List Char) (h : identCont c = true) : Goes c (.word name) (.word (name ++ [c]))
  | quoted (name : List Char) (h : c ≠ '"') : Goes c (.quoted name) (.quoted (name ++ [c]))
  | closes (name : List Char) (h : c = '"') : Goes c (.quoted name) (.closing name)
  | doubled (name : List Char) (h : c = '"') : Goes c (.closing name) (.quoted (name ++ ['"']))
  | other (mode next : Mode) (h : next.Nameless) : Goes c mode next

/-- What a character does: it begins a token, ends the open one before it, goes
on, or closes a constant. -/
theorem step_cases (mode : Mode) (c : Char) (toks : List Token) (next : Mode)
    (h : step mode c = some (toks, next)) :
    (mode = .between ∧ (toks, next) = begin c) ∨
      (∃ t, finish mode = some [t] ∧ (toks, next) = endBefore t c) ∨
      (toks = [] ∧ Goes c mode next) ∨ (toks = [.constant] ∧ next = .between) := by
  have hgoes : next.Nameless → toks = [] → toks = [] ∧ Goes c mode next :=
    fun hnext htoks => ⟨htoks, .other mode next hnext⟩
  cases mode with
  | between =>
    simp only [step, Option.some.injEq] at h
    exact Or.inl ⟨rfl, h.symm⟩
  | word name =>
    simp only [step] at h
    split_ifs at h with hcont
    · cases h
      exact Or.inr (Or.inr (Or.inl ⟨rfl, .word name hcont⟩))
    · exact Or.inr (Or.inl ⟨unquoted name, rfl, (Option.some.inj h).symm⟩)
  | quoted name =>
    simp only [step] at h
    split_ifs at h with hquote
    · cases h
      exact Or.inr (Or.inr (Or.inl ⟨rfl, .closes name hquote⟩))
    · cases h
      exact Or.inr (Or.inr (Or.inl ⟨rfl, .quoted name hquote⟩))
  | closing name =>
    simp only [step] at h
    split_ifs at h with hquote hnone
    · cases h
      exact Or.inr (Or.inr (Or.inl ⟨rfl, .doubled name hquote⟩))
    · exact Or.inr (Or.inl ⟨.ident name true, if_neg hnone, (Option.some.inj h).symm⟩)
  | dollar =>
    simp only [step] at h
    split_ifs at h
    · cases h
      exact Or.inr (Or.inr (Or.inl (hgoes trivial rfl)))
    · exact Or.inr (Or.inl ⟨.special '$', rfl, (Option.some.inj h).symm⟩)
  | number n =>
    simp only [step] at h
    split_ifs at h
    · cases h
      exact Or.inr (Or.inr (Or.inl (hgoes trivial rfl)))
    · exact Or.inr (Or.inl ⟨.param n, rfl, (Option.some.inj h).symm⟩)
  | dash =>
    simp only [step] at h
    split_ifs at h
    · cases h
      exact Or.inr (Or.inr (Or.inl (hgoes trivial rfl)))
    · exact Or.inr (Or.inl ⟨.special '-', rfl, (Option.some.inj h).symm⟩)
  | slash =>
    simp only [step] at h
    split_ifs at h
    · cases h
      exact Or.inr (Or.inr (Or.inl (hgoes trivial rfl)))
    · exact Or.inr (Or.inl ⟨.special '/', rfl, (Option.some.inj h).symm⟩)
  | text =>
    simp only [step] at h
    split_ifs at h
    · cases h
      exact Or.inr (Or.inr (Or.inr ⟨rfl, rfl⟩))
    · cases h
      exact Or.inr (Or.inr (Or.inl (hgoes trivial rfl)))
  | blockStar depth =>
    simp only [step] at h
    split_ifs at h
    all_goals
      cases h
      exact Or.inr (Or.inr (Or.inl (hgoes trivial rfl)))
  | _ =>
    simp only [step] at h
    split_ifs at h
    all_goals
      cases h
      exact Or.inr (Or.inr (Or.inl (hgoes trivial rfl)))

end Steps

section Quotes

def Token.quotes : Token → ℕ
  | ident name true => 2 + 2 * name.count '"'
  | _ => 0

def Mode.quotes : Mode → ℕ
  | quoted name => 1 + 2 * name.count '"'
  | closing name => 2 + 2 * name.count '"'
  | _ => 0

def quotes (toks : List Token) : ℕ := (toks.map Token.quotes).sum

theorem quotes_append (xs ys : List Token) : quotes (xs ++ ys) = quotes xs + quotes ys := by
  rw [quotes, List.map_append, List.sum_append, quotes, quotes]

theorem quotes_cons (t : Token) (toks : List Token) : quotes (t::toks) = t.quotes + quotes toks := by
  rw [quotes, List.map_cons, List.sum_cons, quotes]

def quoteOf (c : Char) : ℕ := if c = '"' then 1 else 0

theorem begin_quotes (c : Char) : quotes (begin c).1 + (begin c).2.quotes ≤ quoteOf c := by
  unfold begin
  split_ifs with h1 h2 h3 h4 h5 h6 h7 <;> simp [quotes, Token.quotes, Mode.quotes, quoteOf, *]

theorem endBefore_quotes (t : Token) (c : Char) :
    quotes (endBefore t c).1 + (endBefore t c).2.quotes ≤ t.quotes + quoteOf c := by
  have h := begin_quotes c
  show quotes (t :: (begin c).1) + (begin c).2.quotes ≤ _
  rw [quotes_cons]
  omega

theorem finish_quotes (mode : Mode) (toks : List Token) (h : finish mode = some toks) :
    quotes toks ≤ mode.quotes := by
  cases mode with
  | closing name =>
    simp only [finish] at h
    split_ifs at h
    cases h
    simp [quotes, Token.quotes, Mode.quotes]
  | _ => cases h <;> simp [quotes, Token.quotes, Mode.quotes, unquoted]

theorem Mode.nameless_quotes (mode : Mode) (h : mode.Nameless) : mode.quotes = 0 := by
  cases mode <;> first | rfl | cases h

theorem goes_quotes (c : Char) (mode next : Mode) (h : Goes c mode next) :
    next.quotes ≤ mode.quotes + quoteOf c := by
  cases h with
  | word name _ => exact Nat.zero_le _
  | quoted name hquote =>
    simp only [Mode.quotes, List.count_append, List.count_singleton, beq_iff_eq, hquote, if_false]
    omega
  | closes name hquote =>
    simp only [Mode.quotes, quoteOf, hquote, if_true]
    omega
  | doubled name hquote =>
    simp only [Mode.quotes, quoteOf, hquote, if_true, List.count_append, List.count_singleton_self]
    omega
  | other mode next hnext =>
    rw [Mode.nameless_quotes next hnext]
    exact Nat.zero_le _

theorem step_quotes (mode : Mode) (c : Char) (toks : List Token) (next : Mode)
    (h : step mode c = some (toks, next)) :
    quotes toks + next.quotes ≤ mode.quotes + quoteOf c := by
  rcases step_cases mode c toks next h with ⟨rfl, hbegin⟩ | ⟨t, hfinish, hend⟩ | ⟨rfl, hgoes⟩ |
    ⟨rfl, rfl⟩
  · have hle := begin_quotes c
    rw [← hbegin] at hle
    dsimp only at hle
    omega
  · have hle := endBefore_quotes t c
    have ht := finish_quotes mode [t] hfinish
    rw [← hend] at hle
    rw [quotes_cons] at ht
    dsimp only at hle
    omega
  · have hle := goes_quotes c mode next hgoes
    rw [quotes, List.map_nil, List.sum_nil]
    omega
  · exact Nat.zero_le _

theorem lex_quotes (mode : Mode) (cs : List Char) (toks : List Token) (h : lex mode cs = some toks) :
    quotes toks ≤ mode.quotes + cs.count '"' := by
  induction cs generalizing mode toks with
  | nil =>
    have hend := finish_quotes mode toks h
    omega
  | cons c cs ih =>
    simp only [lex, Option.bind_eq_bind, Option.bind_eq_some_iff, Option.pure_def,
      Option.some.injEq] at h
    obtain ⟨⟨first, next⟩, hstep, rest, hrest, rfl⟩ := h
    have hfirst := step_quotes mode c first next hstep
    have hquote : (c::cs).count '"' = quoteOf c + cs.count '"' := by
      rw [List.count_cons, quoteOf, Nat.add_comm]
      simp only [beq_iff_eq]
    have hlater := ih next rest hrest
    show quotes (first ++ rest) ≤ _
    rw [quotes_append, hquote]
    omega

end Quotes

section Words

def isWord : List Char → Bool
  | [] => false
  | c::rest => identStart c && rest.all identCont

def isPlain (name : List Char) : Bool := isWord name && name.all (fun c => !c.isUpper)

theorem toLower_plain (c : Char) (h : c.isUpper = false) : c.toLower = c := by
  have hrange : ¬ (c.val ≥ 'A'.val ∧ c.val ≤ 'Z'.val) := of_decide_eq_false h
  exact dif_neg hrange

theorem upper_cases (P : Char → Prop) (h : ∀ n < 26, P (Char.ofNat (65 + n))) (c : Char)
    (hupper : c.isUpper = true) : P c := by
  have hrange : c.val ≥ 'A'.val ∧ c.val ≤ 'Z'.val := of_decide_eq_true hupper
  rw [ge_iff_le, UInt32.le_iff_toNat_le, UInt32.le_iff_toNat_le] at hrange
  have hlow : 65 ≤ c.toNat := hrange.1
  have hhigh : c.toNat ≤ 90 := hrange.2
  have hc := h (c.toNat - 65) (by omega)
  rwa [show 65 + (c.toNat - 65) = c.toNat by omega, Char.ofNat_toNat] at hc

theorem toLower_kind (c : Char) :
    identStart c.toLower = identStart c ∧ identCont c.toLower = identCont c ∧
      c.toLower.isUpper = false := by
  cases hupper : c.isUpper with
  | true =>
    apply upper_cases (fun c => identStart c.toLower = identStart c ∧
      identCont c.toLower = identCont c ∧ c.toLower.isUpper = false) _ c hupper
    decide
  | false =>
    rw [toLower_plain c hupper]
    exact ⟨rfl, rfl, hupper⟩

theorem map_toLower (name : List Char) (h : isPlain name = true) : name.map Char.toLower = name := by
  rw [isPlain, Bool.and_eq_true, List.all_eq_true] at h
  rw [List.map_congr_left (g := id)]
  · exact List.map_id name
  · intro c hc
    exact toLower_plain c (by simpa using h.2 c hc)

theorem folded_plain (name : List Char) (h : isWord name = true) :
    isPlain (name.map Char.toLower) = true := by
  have hupper : (name.map Char.toLower).all (fun c => !c.isUpper) = true := by
    rw [List.all_eq_true]
    intro c hc
    obtain ⟨d, _, rfl⟩ := List.mem_map.mp hc
    rw [(toLower_kind d).2.2]
    rfl
  rw [isPlain, hupper, Bool.and_true]
  cases name with
  | nil => cases h
  | cons c rest =>
    rw [isWord, Bool.and_eq_true, List.all_eq_true] at h
    rw [List.map_cons, isWord, (toLower_kind c).1, h.1, Bool.true_and, List.all_eq_true]
    intro d hd
    obtain ⟨e, he, rfl⟩ := List.mem_map.mp hd
    rw [(toLower_kind e).2.1]
    exact h.2 e he

theorem isWord_append (name : List Char) (c : Char) (h : isWord name = true)
    (hc : identCont c = true) : isWord (name ++ [c]) = true := by
  cases name with
  | nil => cases h
  | cons d rest =>
    rw [isWord, Bool.and_eq_true] at h
    rw [List.cons_append, isWord, h.1, List.all_append, h.2]
    simp [hc]

def Mode.Sound : Mode → Prop
  | word name => isWord name = true
  | _ => True

/-- Unquoted identifiers are plain. -/
def Unquoted (toks : List Token) : Prop := ∀ name, .ident name false ∈ toks → isPlain name = true

theorem unquoted_nil : Unquoted [] := by
  intro name h
  cases h

theorem unquoted_cons (t : Token) (toks : List Token) :
    Unquoted (t::toks) ↔ (∀ name, t = .ident name false → isPlain name = true) ∧ Unquoted toks := by
  simp only [Unquoted, List.mem_cons]
  constructor
  · intro h
    exact ⟨fun name hname => h name (Or.inl hname.symm), fun name hname => h name (Or.inr hname)⟩
  · rintro ⟨hfirst, hrest⟩ name (hname | hname)
    · exact hfirst name hname.symm
    · exact hrest name hname

theorem unquoted_single (t : Token) (h : ∀ name, t ≠ .ident name false) : Unquoted [t] :=
  (unquoted_cons t []).mpr ⟨fun name hname => absurd hname (h name), unquoted_nil⟩

theorem begin_sound (c : Char) : Unquoted (begin c).1 ∧ (begin c).2.Sound := by
  unfold begin
  split_ifs with h1 h2 h3 h4 h5 h6 h7
  · exact ⟨unquoted_nil, trivial⟩
  · exact ⟨unquoted_nil, by simp [Mode.Sound, isWord, h2]⟩
  · exact ⟨unquoted_nil, trivial⟩
  · exact ⟨unquoted_nil, trivial⟩
  · exact ⟨unquoted_nil, trivial⟩
  · exact ⟨unquoted_nil, trivial⟩
  · exact ⟨unquoted_nil, trivial⟩
  · exact ⟨unquoted_single _ (fun _ h => by cases h), trivial⟩

theorem endBefore_sound (t : Token) (c : Char)
    (h : ∀ name, t = .ident name false → isPlain name = true) :
    Unquoted (endBefore t c).1 ∧ (endBefore t c).2.Sound := by
  obtain ⟨htoks, hmode⟩ := begin_sound c
  exact ⟨(unquoted_cons t _).mpr ⟨h, htoks⟩, hmode⟩

theorem word_plain (name : List Char) (h : isWord name = true) (folded : List Char)
    (heq : unquoted name = .ident folded false) : isPlain folded = true := by
  cases heq
  exact folded_plain name h

theorem finish_sound (mode : Mode) (hmode : mode.Sound) (toks : List Token)
    (h : finish mode = some toks) : Unquoted toks := by
  cases mode with
  | word name =>
    cases h
    exact (unquoted_cons _ _).mpr ⟨word_plain name hmode, unquoted_nil⟩
  | closing name =>
    simp only [finish] at h
    split_ifs at h
    cases h
    exact unquoted_single _ (fun _ h => by cases h)
  | between =>
    cases h
    exact unquoted_nil
  | lineComment =>
    cases h
    exact unquoted_nil
  | _ => cases h <;> exact unquoted_single _ (fun _ h => by cases h)

theorem goes_sound (c : Char) (mode next : Mode) (hmode : mode.Sound) (h : Goes c mode next) :
    next.Sound := by
  cases h with
  | word name hcont => exact isWord_append name c hmode hcont
  | quoted name _ => trivial
  | closes name _ => trivial
  | doubled name _ => trivial
  | other mode next hnext => cases next <;> trivial

theorem step_sound (mode : Mode) (hmode : mode.Sound) (c : Char) (toks : List Token) (next : Mode)
    (h : step mode c = some (toks, next)) : Unquoted toks ∧ next.Sound := by
  rcases step_cases mode c toks next h with ⟨rfl, hbegin⟩ | ⟨t, hfinish, hend⟩ | ⟨rfl, hgoes⟩ |
    ⟨rfl, rfl⟩
  · have hsound := begin_sound c
    rwa [← hbegin] at hsound
  · have ht := (unquoted_cons t []).mp (finish_sound mode hmode [t] hfinish)
    have hsound := endBefore_sound t c ht.1
    rwa [← hend] at hsound
  · exact ⟨unquoted_nil, goes_sound c mode next hmode hgoes⟩
  · exact ⟨unquoted_single _ (fun _ h => by cases h), trivial⟩

theorem lex_unquoted (mode : Mode) (hmode : mode.Sound) (cs : List Char) (toks : List Token)
    (h : lex mode cs = some toks) : Unquoted toks := by
  induction cs generalizing mode toks with
  | nil => exact finish_sound mode hmode toks h
  | cons c cs ih =>
    simp only [lex, Option.bind_eq_bind, Option.bind_eq_some_iff, Option.pure_def,
      Option.some.injEq] at h
    obtain ⟨⟨first, next⟩, hstep, rest, hrest, rfl⟩ := h
    obtain ⟨hfirst, hnext⟩ := step_sound mode hmode c first next hstep
    intro name hname
    rcases List.mem_append.mp hname with hname | hname
    · exact hfirst name hname
    · exact ih next hnext rest hrest name hname

def Token.nameQuotes : Token → ℕ
  | ident name _ => name.count '"'
  | _ => 0

def nameQuotes (toks : List Token) : ℕ := (toks.map Token.nameQuotes).sum

theorem nameQuotes_append (xs ys : List Token) :
    nameQuotes (xs ++ ys) = nameQuotes xs + nameQuotes ys := by
  rw [nameQuotes, List.map_append, List.sum_append, nameQuotes, nameQuotes]

theorem nameQuotes_cons (t : Token) (toks : List Token) :
    nameQuotes (t::toks) = t.nameQuotes + nameQuotes toks := by
  rw [nameQuotes, List.map_cons, List.sum_cons, nameQuotes]

theorem plain_count (name : List Char) (h : isPlain name = true) : name.count '"' = 0 := by
  have hcont : ∀ c ∈ name, identCont c = true := by
    rw [isPlain, Bool.and_eq_true] at h
    cases name with
    | nil => cases h.1
    | cons c rest =>
      rw [isWord, Bool.and_eq_true, List.all_eq_true] at h
      rw [List.forall_mem_cons]
      exact ⟨by rw [identCont, h.1.1]; rfl, h.1.2⟩
  apply List.count_eq_zero_of_not_mem
  intro hmem
  exact absurd (hcont _ hmem) (by decide)

theorem nameQuotes_le (toks : List Token) (h : Unquoted toks) : nameQuotes toks ≤ quotes toks := by
  induction toks with
  | nil => exact Nat.le_refl 0
  | cons t toks ih =>
    rw [unquoted_cons] at h
    have hrest := ih h.2
    rw [nameQuotes_cons, quotes_cons]
    cases t with
    | ident name quoted =>
      cases quoted with
      | true =>
        simp only [Token.nameQuotes, Token.quotes]
        omega
      | false =>
        simp only [Token.nameQuotes, Token.quotes, plain_count name (h.1 name rfl)]
        omega
    | _ =>
      simp only [Token.nameQuotes, Token.quotes]
      omega

/-- Where a text has no more quotes than the names of its tokens, it quotes
nothing. -/
theorem none_quoted (toks : List Token) (hplain : Unquoted toks)
    (h : quotes toks ≤ nameQuotes toks) (name : List Char) (quoted : Bool)
    (hmem : .ident name quoted ∈ toks) : quoted = false := by
  cases quoted with
  | false => rfl
  | true =>
    -- the token alone needs two quotes more than its name has
    obtain ⟨before, after, rfl⟩ := List.append_of_mem hmem
    have hbefore := nameQuotes_le before
      (fun name hname => hplain name (List.mem_append_left _ hname))
    have hafter := nameQuotes_le after
      (fun name hname => hplain name (List.mem_append_right _ (List.mem_cons_of_mem _ hname)))
    rw [quotes_append, quotes_cons, nameQuotes_append, nameQuotes_cons] at h
    simp only [Token.nameQuotes, Token.quotes] at h
    omega

end Words

section Reading

def Ends (rest : List Char) : Prop := ∀ c, rest.head? = some c → identCont c = false

theorem ends_nil : Ends [] := by
  intro c h
  cases h

theorem ends_cons (c : Char) (cs : List Char) (h : identCont c = false) : Ends (c::cs) := by
  intro d hd
  cases hd
  exact h

theorem lex_cons (mode : Mode) (c : Char) (cs : List Char) (toks : List Token) (next : Mode)
    (h : step mode c = some (toks, next)) : lex mode (c::cs) = (lex next cs).map (toks ++ ·) := by
  rw [lex, h]
  show (lex next cs).bind (fun rest => some (toks ++ rest)) = _
  cases lex next cs <;> rfl

/-- A piece of text is read by itself. -/
theorem lex_append (mode : Mode) (xs rest : List Char) (toks : List Token) (next : Mode)
    (h : run mode xs = some (toks, next)) : lex mode (xs ++ rest) = (lex next rest).map (toks ++ ·) := by
  induction xs generalizing mode toks with
  | nil =>
    cases h
    simp
  | cons c xs ih =>
    simp only [run, Option.bind_eq_bind, Option.bind_eq_some_iff, Option.pure_def, Option.some.injEq,
      Prod.mk.injEq] at h
    obtain ⟨⟨first, middle⟩, hstep, ⟨later, last⟩, hrun, rfl, rfl⟩ := h
    rw [List.cons_append, lex_cons mode c _ first middle hstep, ih middle later hrun, Option.map_map]
    simp [Function.comp_def, List.append_assoc]

theorem lex_endBefore (mode : Mode) (t : Token) (c : Char) (cs : List Char)
    (h : step mode c = some (endBefore t c)) :
    lex mode (c::cs) = (lex .between (c::cs)).map (t :: ·) := by
  rw [lex_cons mode c cs _ _ h, lex_cons .between c cs (begin c).1 (begin c).2 rfl, Option.map_map]
  rfl

theorem lex_word_rest (name more rest : List Char) (hmore : ∀ c ∈ more, identCont c = true)
    (hrest : Ends rest) :
    lex (.word name) (more ++ rest) = (lex .between rest).map (unquoted (name ++ more) :: ·) := by
  induction more generalizing name with
  | nil =>
    rw [List.nil_append, List.append_nil]
    cases rest with
    | nil => rfl
    | cons c cs =>
      apply lex_endBefore
      rw [step, hrest c rfl]
      rfl
  | cons c more ih =>
    rw [List.forall_mem_cons] at hmore
    have hstep : step (.word name) c = some ([], .word (name ++ [c])) := by
      rw [step, hmore.1]
      rfl
    rw [List.cons_append, lex_cons _ c _ _ _ hstep, ih (name ++ [c]) hmore.2, List.append_assoc,
      List.singleton_append, Option.map_map]
    rfl

theorem isBlank_start (c : Char) (h : identStart c = true) : isBlank c = false := by
  cases hblank : isBlank c with
  | false => rfl
  | true =>
    simp only [isBlank, Bool.or_eq_true, decide_eq_true_eq] at hblank
    rcases hblank with ((((rfl | rfl) | rfl) | rfl) | rfl) | rfl <;> cases h

theorem lex_word (w rest : List Char) (hw : isWord w = true) (hrest : Ends rest) :
    lex .between (w ++ rest) = (lex .between rest).map (unquoted w :: ·) := by
  cases w with
  | nil => cases hw
  | cons c more =>
    rw [isWord, Bool.and_eq_true, List.all_eq_true] at hw
    have hbegin : begin c = ([], .word [c]) := by
      rw [begin, isBlank_start c hw.1, hw.1]
      rfl
    rw [List.cons_append, lex_cons .between c _ _ _ (congrArg some hbegin),
      lex_word_rest [c] more rest hw.2 hrest, Option.map_map]
    rfl

theorem lex_number_rest (n : ℕ) (digits rest : List Char) (hdigits : ∀ c ∈ digits, c.isDigit = true)
    (hrest : Ends rest) :
    lex (.number n) (digits ++ rest) =
      (lex .between rest).map (.param (Nat.ofDigitChars 10 digits n) :: ·) := by
  induction digits generalizing n with
  | nil =>
    rw [List.nil_append, Nat.ofDigitChars_nil]
    cases rest with
    | nil => rfl
    | cons c cs =>
      have hends := hrest c rfl
      simp only [identCont, Bool.or_eq_false_iff] at hends
      apply lex_endBefore
      rw [step, hends.1.1, hends.1.2]
      rfl
  | cons c digits ih =>
    rw [List.forall_mem_cons] at hdigits
    have hstep : step (.number n) c = some ([], .number (10*n + (c.toNat - '0'.toNat))) := by
      rw [step, hdigits.1]
      rfl
    rw [List.cons_append, lex_cons _ c _ _ _ hstep, ih _ hdigits.2, Nat.ofDigitChars_cons,
      Option.map_map]
    rfl

theorem lex_param (n : ℕ) (rest : List Char) (hrest : Ends rest) :
    lex .between ('$' :: (Nat.toDigits 10 n ++ rest)) = (lex .between rest).map (.param n :: ·) := by
  have hdigit : ∀ c ∈ Nat.toDigits 10 n, c.isDigit = true := by
    intro c hc
    exact Nat.isDigit_of_mem_toDigits (by decide) (by decide) hc
  have hvalue : Nat.ofDigitChars 10 (Nat.toDigits 10 n) 0 = n := Nat.ofDigitChars_ten_toDigits
  rw [lex_cons .between '$' _ [] .dollar rfl]
  cases hdigits : Nat.toDigits 10 n with
  | nil => exact absurd hdigits (Nat.toDigits_ne_nil)
  | cons c digits =>
    rw [hdigits, List.forall_mem_cons] at hdigit
    rw [hdigits, Nat.ofDigitChars_cons, Nat.mul_zero, Nat.zero_add] at hvalue
    have hstep : step .dollar c = some ([], .number (c.toNat - '0'.toNat)) := by
      rw [step, hdigit.1]
      rfl
    rw [List.cons_append, lex_cons _ c _ _ _ hstep, lex_number_rest _ digits rest hdigit.2 hrest,
      hvalue, Option.map_map, Option.map_map]
    rfl

def Lexes (text : List Char) (toks : List Token) : Prop :=
  ∀ rest, Ends rest → lex .between (text ++ rest) = (lex .between rest).map (toks ++ ·)

/-- Keywords and punctuation: no word goes on where they begin, and none is
open where they end. -/
def IsFixed (text : List Char) (toks : List Token) : Prop :=
  run .between text = some (toks, .between) ∧ text.head?.all identCont = false

instance (text : List Char) (toks : List Token) : Decidable (IsFixed text toks) :=
  inferInstanceAs (Decidable (_ ∧ _))

theorem fixed_ends (text rest : List Char) (toks : List Token) (h : IsFixed text toks) :
    Ends (text ++ rest) := by
  cases text with
  | nil => cases h.2
  | cons c cs => exact ends_cons c (cs ++ rest) h.2

theorem lexes_nil : Lexes [] [] := by
  intro rest _
  simp

theorem lexes_word (w : List Char) (h : isWord w = true) : Lexes w [unquoted w] := by
  intro rest hrest
  exact lex_word w rest h hrest

theorem lexes_plain (w : List Char) (h : isPlain w = true) : Lexes w [.ident w false] := by
  have hw := h
  rw [isPlain, Bool.and_eq_true] at hw
  have hlex := lexes_word w hw.1
  rwa [unquoted, map_toLower w h] at hlex

theorem lexes_param (n : ℕ) : Lexes ('$' :: Nat.toDigits 10 n) [.param n] := by
  intro rest hrest
  exact lex_param n rest hrest

theorem lexes_first (text more : List Char) (toks moreToks : List Token)
    (h : run .between text = some (toks, .between)) (hmore : Lexes more moreToks) :
    Lexes (text ++ more) (toks ++ moreToks) := by
  intro rest hrest
  rw [List.append_assoc, lex_append .between text _ toks .between h, hmore rest hrest, Option.map_map]
  simp [Function.comp_def]

theorem lexes_around (text sep more : List Char) (toks sepToks moreToks : List Token)
    (h : Lexes text toks) (hsep : IsFixed sep sepToks) (hmore : Lexes more moreToks) :
    Lexes (text ++ (sep ++ more)) (toks ++ (sepToks ++ moreToks)) := by
  intro rest hrest
  have hlater := lexes_first sep more sepToks moreToks hsep.1 hmore rest hrest
  have hends := fixed_ends sep (more ++ rest) sepToks hsep
  rw [← List.append_assoc] at hends
  rw [List.append_assoc, h _ hends, hlater, Option.map_map]
  simp [Function.comp_def]

theorem lexes_separated {α : Type} (text : α → List Char) (toks : α → List Token) (sep : List Char)
    (sepToks : List Token) (hsep : IsFixed sep sepToks) (xs : List α)
    (h : ∀ x ∈ xs, Lexes (text x) (toks x)) :
    Lexes (sep.intercalate (xs.map text)) (sepToks.intercalate (xs.map toks)) := by
  induction xs with
  | nil => exact lexes_nil
  | cons x xs ih =>
    rw [List.forall_mem_cons] at h
    cases xs with
    | nil =>
      rw [List.map_singleton, List.map_singleton, List.intercalate_singleton,
        List.intercalate_singleton]
      exact h.1
    | cons y ys =>
      have hmore := ih h.2
      rw [List.map_cons, List.map_cons] at hmore ⊢
      rw [List.map_cons, List.map_cons, List.intercalate_cons_cons, List.intercalate_cons_cons,
        List.append_assoc, List.append_assoc]
      exact lexes_around _ _ _ _ _ _ h.1 hsep hmore

theorem lex_text (text : List Char) (toks : List Token) (h : Lexes text toks) :
    lex .between text = some toks := by
  have htext := h [] ends_nil
  rw [List.append_nil] at htext
  rw [htext]
  show some (toks ++ []) = some toks
  rw [List.append_nil]

end Reading

end CDC.SqlLexer
