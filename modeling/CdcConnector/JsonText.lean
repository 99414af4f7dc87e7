import Mathlib.Data.List.AList
import Mathlib.Data.Int.Notation

/-!
# Flat objects as JSON text

Scalars, and objects of scalars, written without blanks. A string's quotes,
backslashes and control characters are escaped, so no text holds a control
character, and texts ended by newlines are told apart.
-/

set_option autoImplicit false

namespace CDC.JsonText

inductive Value where
  | null
  | bool (b : Bool)
  | number (n : ℤ)
  | string (s : String)
  deriving DecidableEq

abbrev Object := AList (fun _ : String => Value)

def escape (c : Char) : List Char :=
  if c = '"' then ['\\', '"']
  else if c = '\\' then ['\\', '\\']
  else if c = '\x08' then ['\\', 'b']
  else if c = '\t' then ['\\', 't']
  else if c = '\n' then ['\\', 'n']
  else if c = '\x0c' then ['\\', 'f']
  else if c = '\r' then ['\\', 'r']
  else if c.toNat < 32 then
    ['\\', 'u', '0', '0', Nat.digitChar (c.toNat / 16), Nat.digitChar (c.toNat % 16)]
  else [c]

def quoted (s : String) : List Char := '"' :: (s.toList.flatMap escape ++ ['"'])

def Value.text : Value → List Char
  | .null => ['n', 'u', 'l', 'l']
  | .bool true => ['t', 'r', 'u', 'e']
  | .bool false => ['f', 'a', 'l', 's', 'e']
  | .number (.ofNat n) => Nat.toDigits 10 n
  | .number (.negSucc n) => '-' :: Nat.toDigits 10 (n + 1)
  | .string s => quoted s

def member (entry : Sigma (fun _ : String => Value)) : List Char :=
  quoted entry.1 ++ ':' :: entry.2.text

def members (entries : List (Sigma (fun _ : String => Value))) : List Char :=
  '{' :: ([','].intercalate (entries.map member) ++ ['}'])

def Plain (text : List Char) : Prop := ∀ c ∈ text, 32 ≤ c.toNat

section Plain

theorem plain_append (xs ys : List Char) : Plain (xs ++ ys) ↔ Plain xs ∧ Plain ys := by
  simp only [Plain, List.mem_append]
  constructor
  · intro h
    exact ⟨fun c hc => h c (Or.inl hc), fun c hc => h c (Or.inr hc)⟩
  · rintro ⟨hx, hy⟩ c (hc | hc)
    · exact hx c hc
    · exact hy c hc

theorem plain_cons (c : Char) (text : List Char) : Plain (c::text) ↔ 32 ≤ c.toNat ∧ Plain text := by
  simp [Plain]

theorem plain_nil : Plain [] := by
  intro c hc
  cases hc

theorem plain_flatMap {α : Type} (f : α → List Char) (xs : List α) (h : ∀ x ∈ xs, Plain (f x)) :
    Plain (xs.flatMap f) := by
  intro c hc
  obtain ⟨x, hx, hcx⟩ := List.mem_flatMap.mp hc
  exact h x hx c hcx

theorem escape_plain (c : Char) : Plain (escape c) := by
  have hdigit : ∀ n, n < 16 → 32 ≤ (Nat.digitChar n).toNat := by decide
  unfold escape
  split_ifs with h1 h2 h3 h4 h5 h6 h7 hcontrol
  · simp [Plain]
  · simp [Plain]
  · simp [Plain]
  · simp [Plain]
  · simp [Plain]
  · simp [Plain]
  · simp [Plain]
  · have hhigh := hdigit (c.toNat / 16) (by omega)
    have hlow := hdigit (c.toNat % 16) (by omega)
    simp [Plain, hhigh, hlow]
  · intro d hd
    rw [List.mem_singleton.mp hd]
    omega

theorem quoted_plain (s : String) : Plain (quoted s) := by
  rw [quoted, plain_cons, plain_append]
  exact ⟨by decide, plain_flatMap escape s.toList (fun c _ => escape_plain c), by simp [Plain]⟩

theorem digits_plain (n : ℕ) : Plain (Nat.toDigits 10 n) := by
  intro c hc
  have hdigit := Nat.isDigit_of_mem_toDigits (by decide) (by decide) hc
  rw [Char.isDigit, Bool.and_eq_true, decide_eq_true_eq, decide_eq_true_eq] at hdigit
  have hlow : 48 ≤ c.toNat := hdigit.1
  omega

theorem text_plain (v : Value) : Plain v.text := by
  cases v with
  | null => simp [Plain, Value.text]
  | bool b => cases b <;> simp [Plain, Value.text]
  | number n =>
    cases n with
    | ofNat n => exact digits_plain n
    | negSucc n =>
      rw [Value.text, plain_cons]
      exact ⟨by decide, digits_plain (n + 1)⟩
  | string s => exact quoted_plain s

theorem plain_intercalate (texts : List (List Char)) (h : ∀ text ∈ texts, Plain text) :
    Plain ([','].intercalate texts) := by
  induction texts with
  | nil => exact plain_nil
  | cons text texts ih =>
    have hfirst := h text List.mem_cons_self
    have hrest := ih (fun t ht => h t (List.mem_cons_of_mem text ht))
    cases texts with
    | nil => simpa using hfirst
    | cons next texts =>
      rw [List.intercalate_cons_cons, plain_append, plain_append]
      exact ⟨⟨hfirst, by simp [Plain]⟩, hrest⟩

theorem members_plain (entries : List (Sigma (fun _ : String => Value))) :
    Plain (members entries) := by
  have hmember : ∀ text ∈ entries.map member, Plain text := by
    intro text htext
    obtain ⟨entry, _, rfl⟩ := List.mem_map.mp htext
    rw [member, plain_append, plain_cons]
    exact ⟨quoted_plain _, by decide, text_plain _⟩
  rw [members, plain_cons, plain_append]
  exact ⟨by decide, plain_intercalate _ hmember, by simp [Plain]⟩

end Plain

theorem splitOn_lines (texts : List (List Char)) (h : ∀ text ∈ texts, Plain text) :
    (texts.flatMap (· ++ ['\n'])).splitOn '\n' = texts ++ [[]] := by
  induction texts with
  | nil => rfl
  | cons text texts ih =>
    have hplain := h text List.mem_cons_self
    have hnot : '\n' ∉ text := by
      intro hmem
      exact absurd (hplain '\n' hmem) (by decide)
    rw [List.flatMap_cons, List.append_assoc, List.singleton_append,
      List.splitOn_append_cons_self_of_not_mem hnot,
      ih (fun t ht => h t (List.mem_cons_of_mem text ht)), List.cons_append]

end CDC.JsonText
