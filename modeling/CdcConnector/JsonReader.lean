import CdcConnector.JsonText

/-!
# Reading flat objects

A reader for the texts of flat objects. It reads back every text that is
written, in whatever order the members stand.
-/

set_option autoImplicit false

namespace CDC.JsonReader
open CDC.JsonText

abbrev Entry := Sigma (fun _ : String => Value)

def hexDigit (c : Char) : Option ℕ :=
  if c.isDigit then some (c.toNat - 48)
  else if 97 ≤ c.toNat ∧ c.toNat ≤ 102 then some (c.toNat - 87)
  else none

def unescape (c : Char) : Option Char :=
  if c = '"' then some '"'
  else if c = '\\' then some '\\'
  else if c = 'b' then some '\x08'
  else if c = 't' then some '\t'
  else if c = 'n' then some '\n'
  else if c = 'f' then some '\x0c'
  else if c = 'r' then some '\r'
  else none

def readChars : List Char → Option (List Char × List Char)
  | [] => none
  | '"' :: text => some ([], text)
  | '\\' :: 'u' :: a :: b :: c :: d :: text => do
    let a ← hexDigit a
    let b ← hexDigit b
    let c ← hexDigit c
    let d ← hexDigit d
    let (chars, rest) ← readChars text
    return (Char.ofNat (((a*16 + b)*16 + c)*16 + d) :: chars, rest)
  | '\\' :: c :: text => do
    let c ← unescape c
    let (chars, rest) ← readChars text
    return (c::chars, rest)
  | c::text => do
    let (chars, rest) ← readChars text
    return (c::chars, rest)

def readNatural (text : List Char) : Option (ℕ × List Char) :=
  let digits := text.takeWhile Char.isDigit
  if digits = [] then none
  else some (Nat.ofDigitChars 10 digits 0, text.dropWhile Char.isDigit)

def readValue : List Char → Option (Value × List Char)
  | 'n' :: 'u' :: 'l' :: 'l' :: rest => some (.null, rest)
  | 't' :: 'r' :: 'u' :: 'e' :: rest => some (.bool true, rest)
  | 'f' :: 'a' :: 'l' :: 's' :: 'e' :: rest => some (.bool false, rest)
  | '"' :: text => (readChars text).map (fun r => (.string (String.ofList r.1), r.2))
  | '-' :: text => (readNatural text).map (fun r => (.number (-r.1), r.2))
  | text => (readNatural text).map (fun r => (.number r.1, r.2))

def readMember : List Char → Option (Entry × List Char)
  | '"' :: text => do
    let (key, text) ← readChars text
    match text with
    | ':' :: text => do
      let (value, rest) ← readValue text
      return (⟨String.ofList key, value⟩, rest)
    | _ => none
  | _ => none

def readMembers : ℕ → List Char → Option (List Entry × List Char)
  | 0, _ => none
  | n+1, text => do
    let (entry, text) ← readMember text
    match text with
    | ',' :: text => do
      let (entries, rest) ← readMembers n text
      return (entry::entries, rest)
    | '}' :: rest => return ([entry], rest)
    | _ => none

def readObject : List Char → Option (List Entry × List Char)
  | '{' :: '}' :: rest => some ([], rest)
  | '{' :: text => readMembers text.length text
  | _ => none

section Chars

theorem hexDigit_digitChar (n : ℕ) (h : n < 16) : hexDigit (Nat.digitChar n) = some n := by
  have hall : ∀ n < 16, hexDigit (Nat.digitChar n) = some n := by decide
  exact hall n h

theorem readChars_escape (c : Char) (text chars rest : List Char)
    (h : readChars text = some (chars, rest)) :
    readChars (escape c ++ text) = some (c::chars, rest) := by
  unfold escape
  split_ifs with hquote hslash hb ht hn hf hr hcontrol
  · rw [hquote]
    simp [readChars, unescape, h]
  · rw [hslash]
    simp [readChars, unescape, h]
  · rw [hb]
    simp [readChars, unescape, h]
  · rw [ht]
    simp [readChars, unescape, h]
  · rw [hn]
    simp [readChars, unescape, h]
  · rw [hf]
    simp [readChars, unescape, h]
  · rw [hr]
    simp [readChars, unescape, h]
  · have hzero : hexDigit '0' = some 0 := by decide
    have hhigh := hexDigit_digitChar (c.toNat / 16) (by omega)
    have hlow := hexDigit_digitChar (c.toNat % 16) (by omega)
    have hcode : ((0*16 + 0)*16 + c.toNat / 16)*16 + c.toNat % 16 = c.toNat := by omega
    rw [List.cons_append, List.cons_append, List.cons_append, List.cons_append, List.cons_append,
      List.cons_append, List.nil_append, readChars, hzero, hhigh, hlow, h]
    simp only [Option.pure_def, Option.bind_eq_bind, Option.bind_some, hcode, Char.ofNat_toNat]
  · rw [List.singleton_append, readChars]
    · rw [h]
      rfl
    · exact hquote
    · exact fun _ _ _ _ _ hc => absurd hc hslash
    · exact fun _ _ hc => absurd hc hslash

theorem readChars_quoted (s : List Char) (rest : List Char) :
    readChars (s.flatMap escape ++ '"' :: rest) = some (s, rest) := by
  induction s with
  | nil => rfl
  | cons c s ih =>
    rw [List.flatMap_cons, List.append_assoc]
    exact readChars_escape c _ s rest ih

end Chars

def Stops (text : List Char) : Prop := ∀ c ∈ text.head?, c.isDigit = false

theorem readNatural_digits (n : ℕ) (rest : List Char) (h : Stops rest) :
    readNatural (Nat.toDigits 10 n ++ rest) = some (n, rest) := by
  have hdigits : ∀ c ∈ Nat.toDigits 10 n, c.isDigit = true :=
    fun c hc => Nat.isDigit_of_mem_toDigits (by decide) (by decide) hc
  have hnone : rest.takeWhile Char.isDigit = [] ∧ rest.dropWhile Char.isDigit = rest := by
    cases rest with
    | nil => exact ⟨rfl, rfl⟩
    | cons c rest =>
      have hc := h c rfl
      exact ⟨by rw [List.takeWhile_cons, if_neg (by simp [hc])],
        by rw [List.dropWhile_cons, if_neg (by simp [hc])]⟩
  rw [readNatural, List.takeWhile_append_of_pos hdigits, List.dropWhile_append_of_pos hdigits, hnone.1,
    hnone.2, List.append_nil, if_neg Nat.toDigits_ne_nil, Nat.ofDigitChars_ten_toDigits]

theorem readValue_digits (n : ℕ) (rest : List Char) (h : Stops rest) :
    readValue (Nat.toDigits 10 n ++ rest) = some (.number n, rest) := by
  have hread := readNatural_digits n rest h
  have hdigits : ∀ c ∈ Nat.toDigits 10 n, c.isDigit = true :=
    fun c hc => Nat.isDigit_of_mem_toDigits (by decide) (by decide) hc
  cases hd : Nat.toDigits 10 n with
  | nil => exact absurd hd Nat.toDigits_ne_nil
  | cons c digits =>
    rw [hd] at hread hdigits
    have hc := hdigits c List.mem_cons_self
    have hother : c ≠ 'n' ∧ c ≠ 't' ∧ c ≠ 'f' ∧ c ≠ '"' ∧ c ≠ '-' := by
      refine ⟨?_, ?_, ?_, ?_, ?_⟩ <;> rintro rfl <;> exact absurd hc (by decide)
    rw [List.cons_append] at hread ⊢
    unfold readValue
    split
    · next heq => exact absurd (List.cons.inj heq).1 hother.1
    · next heq => exact absurd (List.cons.inj heq).1 hother.2.1
    · next heq => exact absurd (List.cons.inj heq).1 hother.2.2.1
    · next heq => exact absurd (List.cons.inj heq).1 hother.2.2.2.1
    · next heq => exact absurd (List.cons.inj heq).1 hother.2.2.2.2
    · rw [hread]
      rfl

theorem readValue_text (v : Value) (rest : List Char) (h : Stops rest) :
    readValue (v.text ++ rest) = some (v, rest) := by
  cases v with
  | null => rfl
  | bool b => cases b <;> rfl
  | string s =>
    have hread := readChars_quoted s.toList rest
    rw [Value.text, quoted, List.cons_append, List.append_assoc, List.singleton_append, readValue, hread,
      Option.map_some, String.ofList_toList]
  | number n =>
    cases n with
    | ofNat n => exact readValue_digits n rest h
    | negSucc n =>
      have hread := readNatural_digits (n + 1) rest h
      rw [Value.text, List.cons_append, readValue, hread]
      rfl

theorem readMember_text (entry : Entry) (rest : List Char) (h : Stops rest) :
    readMember (member entry ++ rest) = some (entry, rest) := by
  obtain ⟨key, value⟩ := entry
  have hkey := readChars_quoted key.toList (':' :: (value.text ++ rest))
  have hvalue := readValue_text value rest h
  have htext : member ⟨key, value⟩ ++ rest =
      '"' :: (key.toList.flatMap escape ++ '"' :: ':' :: (value.text ++ rest)) := by
    simp [member, quoted]
  rw [htext, readMember, hkey]
  simp only [Option.pure_def, Option.bind_eq_bind, Option.bind_some, hvalue, String.ofList_toList]

theorem readMembers_text (entries : List Entry) (rest : List Char) (hsome : entries ≠ []) (n : ℕ)
    (hn : entries.length ≤ n) :
    readMembers n ([','].intercalate (entries.map member) ++ '}' :: rest) = some (entries, rest) := by
  induction entries generalizing n with
  | nil => exact absurd rfl hsome
  | cons entry entries ih =>
    cases n with
    | zero => cases hn
    | succ n =>
      cases entries with
      | nil =>
        have hread := readMember_text entry ('}' :: rest) (by intro c hc; cases hc; rfl)
        rw [List.map_singleton, List.intercalate_singleton, readMembers, hread]
        rfl
      | cons next entries =>
        have ih := ih (by simp) n (Nat.le_of_succ_le_succ hn)
        have hread := readMember_text entry
          (',' :: ([','].intercalate ((next::entries).map member) ++ '}' :: rest))
          (by intro c hc; cases hc; rfl)
        have htext : [','].intercalate ((entry::next::entries).map member) ++ '}' :: rest =
            member entry ++ ',' :: ([','].intercalate ((next::entries).map member) ++ '}' :: rest) := by
          rw [List.map_cons, List.map_cons, List.intercalate_cons_cons]
          simp
        rw [htext, readMembers, hread]
        simp only [Option.pure_def, Option.bind_eq_bind, Option.bind_some, ih]

theorem members_length (entries : List Entry) :
    entries.length ≤ ([','].intercalate (entries.map member)).length := by
  induction entries with
  | nil => exact Nat.le_refl _
  | cons entry entries ih =>
    have hpos : 1 ≤ (member entry).length := by simp [member, quoted]
    cases entries with
    | nil => simpa using hpos
    | cons next entries =>
      rw [List.map_cons, List.map_cons, List.intercalate_cons_cons, List.length_append,
        List.length_append, List.length_cons]
      simp only [List.map_cons] at ih
      omega

theorem readObject_text (entries : List Entry) (rest : List Char) :
    readObject (members entries ++ rest) = some (entries, rest) := by
  cases entries with
  | nil => rfl
  | cons entry entries =>
    have hlen := members_length (entry::entries)
    have hread := readMembers_text (entry::entries) rest (by simp)
      ([','].intercalate ((entry::entries).map member) ++ '}' :: rest).length
      (by rw [List.length_append]; omega)
    have htext : members (entry::entries) ++ rest =
        '{' :: ([','].intercalate ((entry::entries).map member) ++ '}' :: rest) := by
      simp [members]
    rw [htext]
    unfold readObject
    split
    · next heq =>
      exfalso
      obtain ⟨tail, hopen⟩ : ∃ tail,
          [','].intercalate ((entry::entries).map member) ++ '}' :: rest = '"' :: tail := by
        cases entries with
        | nil => exact ⟨_, by simp [member, quoted]; rfl⟩
        | cons next entries => exact ⟨_, by simp [List.intercalate_cons_cons, member, quoted]; rfl⟩
      rw [hopen] at heq
      cases heq
    · next heq =>
      cases heq
      exact hread
    · next hne => exact absurd rfl (hne _)

end CDC.JsonReader
