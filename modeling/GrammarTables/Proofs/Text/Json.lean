import GrammarTables.Text.Json
import Mathlib.Data.List.TakeWhile

/-!
# Proofs/Text/Json — a compact text is the text of one value

Nothing separates the values of a compact text but the text itself, so each kind of value has a
lemma of one shape: when two texts of that kind, each followed by anything, are the same characters,
then the values are the same and so is what follows.

* **Strings** (`quote_append_inj`).  Reading back one escaped character undoes the writing
  (`unescape?_escapeChar`), and the closing quote is no character of the string.
* **Numbers** (`nat_append_inj`).  The digits end where a character follows that is no digit, which
  holds of everything that can follow a value (`Ends`).
* **Values** (`chars_append_inj`).  The first character tells the kind of the value (`opener`), and
  a comma or a bracket after it whether there are more.
-/

namespace GrammarTables.Text.Json

variable {cs ds rest rest' : List Char} {s t : String} {v v' : Json}

/-! ## Strings -/

/-- The value of a lower-case hexadecimal digit. -/
def hexValue (c : Char) : Nat :=
  if c.isDigit then c.toNat - 48 else c.toNat - 87

/-- The character that a letter stands for after a backslash. -/
def unescapeLetter : Char → Char
  | 'n' => '\n'
  | 't' => '\t'
  | 'r' => '\r'
  | 'b' => '\x08'
  | 'f' => '\x0c'
  | c => c

/-- The first character of a string, read from its text, and the text after it; the closing quote is
no character. -/
def unescape? : List Char → Option (Char × List Char)
  | [] => none
  | '"' :: _ => none
  | '\\' :: 'u' :: _ :: _ :: high :: low :: rest =>
    some (Char.ofNat (16 * hexValue high + hexValue low), rest)
  | '\\' :: c :: rest => some (unescapeLetter c, rest)
  | c :: rest => some (c, rest)

theorem hexValue_hexDigit : ∀ n < 16, hexValue (hexDigit n) = n := by
  decide

/-- **Reading undoes writing**, character by character. -/
theorem unescape?_escapeChar (c : Char) (rest : List Char) :
    unescape? (escapeChar c ++ rest) = some (c, rest) := by
  fun_cases escapeChar c
  case case8 =>
    have hvalue : 16 * hexValue (hexDigit (c.toNat / 16)) + hexValue (hexDigit (c.toNat % 16)) =
        c.toNat := by
      rw [hexValue_hexDigit _ (by omega), hexValue_hexDigit _ (by omega)]
      omega
    simp only [List.cons_append, List.nil_append, unescape?]
    rw [hvalue, Char.ofNat_toNat]
  case case9 hquote hbackslash _ _ _ _ _ _ =>
    rw [List.singleton_append, unescape?]
    · exact hquote
    · exact fun _ _ _ _ _ h => absurd h hbackslash
    · exact fun _ _ h => absurd h hbackslash
  all_goals rfl

/-- The text of a string ends at the first quote that is not escaped. -/
theorem escape_append_inj
    (h : cs.flatMap escapeChar ++ '"' :: rest = ds.flatMap escapeChar ++ '"' :: rest') :
    cs = ds ∧ rest = rest' := by
  induction cs generalizing ds with
  | nil =>
    cases ds with
    | nil => exact ⟨rfl, List.tail_eq_of_cons_eq h⟩
    | cons d ds =>
      rw [List.flatMap_cons, List.append_assoc] at h
      have hread := congrArg unescape? h
      rw [unescape?_escapeChar] at hread
      exact nomatch hread
  | cons c cs ih =>
    rw [List.flatMap_cons, List.append_assoc] at h
    have hread := congrArg unescape? h
    rw [unescape?_escapeChar] at hread
    cases ds with
    | nil => exact nomatch hread
    | cons d ds =>
      rw [List.flatMap_cons, List.append_assoc, unescape?_escapeChar] at hread
      obtain ⟨rfl, htail⟩ := Prod.mk.inj (Option.some.inj hread)
      obtain ⟨rfl, hrest⟩ := ih htail
      exact ⟨rfl, hrest⟩

/-- **A string is read in one way.** -/
theorem quote_append_inj (h : quote s ++ rest = quote t ++ rest') : s = t ∧ rest = rest' := by
  simp only [quote, List.cons_append, List.append_assoc, List.nil_append, List.cons.injEq,
    true_and] at h
  obtain ⟨hchars, hrest⟩ := escape_append_inj h
  exact ⟨String.toList_inj.mp hchars, hrest⟩

/-! ## Numbers -/

/-- The text can follow a value: it does not go on with a digit. -/
def Ends (rest : List Char) : Prop :=
  ∀ c ∈ rest.head?, c.isDigit = false

theorem takeWhile_isDigit_repr (n : Nat) (h : Ends rest) :
    ((Nat.repr n).toList ++ rest).takeWhile Char.isDigit = (Nat.repr n).toList := by
  rw [List.takeWhile_append_of_pos fun c hc => Nat.isDigit_of_mem_toDigits (by decide) le_rfl
    (Nat.toList_repr ▸ hc)]
  cases rest with
  | nil => exact List.append_nil _
  | cons c rest => rw [List.takeWhile_cons_of_neg (by simp [h c rfl]), List.append_nil]

/-- **A number is read in one way.** -/
theorem nat_append_inj {m n : Nat} (hrest : Ends rest) (hrest' : Ends rest')
    (h : (Nat.repr m).toList ++ rest = (Nat.repr n).toList ++ rest') : m = n ∧ rest = rest' := by
  have hdigits := congrArg (List.takeWhile Char.isDigit) h
  rw [takeWhile_isDigit_repr m hrest, takeWhile_isDigit_repr n hrest'] at hdigits
  rw [hdigits] at h
  refine ⟨?_, List.append_cancel_left h⟩
  rw [Nat.toList_repr, Nat.toList_repr] at hdigits
  rw [← Nat.ofDigitChars_ten_toDigits (n := m), hdigits, Nat.ofDigitChars_ten_toDigits]

/-! ## Values -/

/-- The character that a value begins with, `0` standing for any digit. -/
def opener : Json → Char
  | null => 'n'
  | bool true => 't'
  | bool false => 'f'
  | nat _ => '0'
  | str _ => '"'
  | arr _ => '['
  | obj _ => '\x7b'

/-- **The first character of a text tells the kind of the value.** -/
theorem exists_chars_eq_cons (v : Json) : ∃ c cs, v.chars = c :: cs ∧
    (if c.isDigit then '0' else c) = v.opener := by
  cases v with
  | null => exact ⟨_, _, rfl, rfl⟩
  | bool value => cases value <;> exact ⟨_, _, rfl, rfl⟩
  | str => exact ⟨_, _, rfl, rfl⟩
  | arr => exact ⟨_, _, rfl, rfl⟩
  | obj => exact ⟨_, _, rfl, rfl⟩
  | nat n =>
    obtain ⟨c, cs, hcs⟩ := List.exists_cons_of_ne_nil (Nat.toDigits_ne_nil (n := n) (b := 10))
    have hdigit : c.isDigit :=
      Nat.isDigit_of_mem_toDigits (by decide) le_rfl (hcs ▸ List.mem_cons_self)
    exact ⟨c, cs, by rw [chars, Nat.toList_repr, hcs], if_pos hdigit⟩

theorem opener_eq (h : v.chars ++ rest = v'.chars ++ rest') : v.opener = v'.opener := by
  obtain ⟨c, cs, hcs, hc⟩ := exists_chars_eq_cons v
  obtain ⟨c', cs', hcs', hc'⟩ := exists_chars_eq_cons v'
  rw [hcs, hcs'] at h
  rw [← hc, ← hc', List.head_eq_of_cons_eq h]

/-- No value begins as what stands after the last item of an array or an object. -/
theorem chars_append_ne {c : Char} (hc : c = ']' ∨ c = '\x7d') : v.chars ++ rest ≠ c :: rest' := by
  obtain ⟨d, cs, hcs, hd⟩ := exists_chars_eq_cons v
  rw [hcs]
  intro h
  obtain rfl := List.head_eq_of_cons_eq h
  have hne : d ≠ v.opener := by
    rcases hc with rfl | rfl
    all_goals
      cases v with
      | bool value => cases value <;> decide
      | _ => simp [opener]
  refine hne (Eq.trans ?_ hd)
  rcases hc with rfl | rfl
  all_goals rfl

theorem itemChars_cons (item : Json) (items : List Json) : itemChars (item :: items) =
    item.chars ++ if items.isEmpty then [] else ',' :: itemChars items := by
  cases items with
  | nil => exact (List.append_nil _).symm
  | cons => rfl

theorem fieldChars_cons (key : String) (value : Json) (fields : List (String × Json)) :
    fieldChars ((key, value) :: fields) = quote key ++ ':' :: (value.chars ++
      if fields.isEmpty then [] else ',' :: fieldChars fields) := by
  cases fields with
  | nil => exact congrArg (fun cs => quote key ++ ':' :: cs) (List.append_nil _).symm
  | cons => rfl

/-- After an item there is a comma, or a closing bracket. -/
theorem ends_of_tail {empty : Bool} {c : Char} (hc : c = ']' ∨ c = '\x7d') :
    Ends ((if empty then [] else ',' :: cs) ++ c :: rest) := by
  intro d hd
  cases empty with
  | false =>
    obtain rfl := Option.some.inj hd
    rfl
  | true =>
    obtain rfl := Option.some.inj hd
    rcases hc with rfl | rfl <;> rfl

theorem itemChars_of_isEmpty {items : List Json} (h : items.isEmpty) : itemChars items = [] := by
  obtain rfl := List.isEmpty_iff.mp h
  rfl

theorem fieldChars_of_isEmpty {fields : List (String × Json)} (h : fields.isEmpty) :
    fieldChars fields = [] := by
  obtain rfl := List.isEmpty_iff.mp h
  rfl

/-- The comma tells whether there are more, so the rest of the items is read in one way if the items
are. -/
theorem tail_append_inj {empty empty' : Bool} {c : Char} (hc : c = ']' ∨ c = '\x7d')
    (hcs : empty → cs = []) (hds : empty' → ds = [])
    (h : (if empty then [] else ',' :: cs) ++ c :: rest =
      (if empty' then [] else ',' :: ds) ++ c :: rest') : cs ++ c :: rest = ds ++ c :: rest' := by
  have hcomma : c ≠ ',' := by
    rintro rfl
    exact absurd hc (by decide)
  cases empty with
  | true =>
    cases empty' with
    | true =>
      rw [hcs rfl, hds rfl]
      exact h
    | false => exact absurd (List.head_eq_of_cons_eq h) hcomma
  | false =>
    cases empty' with
    | true => exact absurd (List.head_eq_of_cons_eq h).symm hcomma
    | false => exact List.tail_eq_of_cons_eq h

mutual

/-- **A value is read in one way.** -/
theorem chars_append_inj (v v' : Json) {rest rest' : List Char} (hrest : Ends rest)
    (hrest' : Ends rest') (h : v.chars ++ rest = v'.chars ++ rest') : v = v' ∧ rest = rest' := by
  have hopener := opener_eq h
  match v, v' with
  | null, null => exact ⟨rfl, List.append_cancel_left h⟩
  | bool true, bool true => exact ⟨rfl, List.append_cancel_left h⟩
  | bool false, bool false => exact ⟨rfl, List.append_cancel_left h⟩
  | nat m, nat n =>
    obtain ⟨rfl, hrest⟩ := nat_append_inj hrest hrest' h
    exact ⟨rfl, hrest⟩
  | str s, str t =>
    obtain ⟨rfl, hrest⟩ := quote_append_inj h
    exact ⟨rfl, hrest⟩
  | arr items, arr items' =>
    simp only [chars, List.cons_append, List.append_assoc, List.nil_append, List.cons.injEq,
      true_and] at h
    obtain ⟨rfl, hrest⟩ := itemChars_append_inj items items' h
    exact ⟨rfl, hrest⟩
  | obj fields, obj fields' =>
    simp only [chars, List.cons_append, List.append_assoc, List.nil_append, List.cons.injEq,
      true_and] at h
    obtain ⟨rfl, hrest⟩ := fieldChars_append_inj fields fields' h
    exact ⟨rfl, hrest⟩

/-- The items of an array are read in one way. -/
theorem itemChars_append_inj (items items' : List Json) {rest rest' : List Char}
    (h : itemChars items ++ ']' :: rest = itemChars items' ++ ']' :: rest') :
    items = items' ∧ rest = rest' := by
  match items, items' with
  | [], [] => exact ⟨rfl, List.tail_eq_of_cons_eq h⟩
  | [], item' :: items' =>
    rw [itemChars_cons, List.append_assoc] at h
    exact absurd h.symm (chars_append_ne (Or.inl rfl))
  | item :: items, [] =>
    rw [itemChars_cons, List.append_assoc] at h
    exact absurd h (chars_append_ne (Or.inl rfl))
  | item :: items, item' :: items' =>
    rw [itemChars_cons, itemChars_cons, List.append_assoc, List.append_assoc] at h
    obtain ⟨rfl, htail⟩ := chars_append_inj item item' (ends_of_tail (Or.inl rfl))
      (ends_of_tail (Or.inl rfl)) h
    obtain ⟨rfl, hrest⟩ := itemChars_append_inj items items'
      (tail_append_inj (Or.inl rfl) itemChars_of_isEmpty itemChars_of_isEmpty htail)
    exact ⟨rfl, hrest⟩

/-- The fields of an object are read in one way. -/
theorem fieldChars_append_inj (fields fields' : List (String × Json)) {rest rest' : List Char}
    (h : fieldChars fields ++ '\x7d' :: rest = fieldChars fields' ++ '\x7d' :: rest') :
    fields = fields' ∧ rest = rest' := by
  match fields, fields' with
  | [], [] => exact ⟨rfl, List.tail_eq_of_cons_eq h⟩
  | [], (key', value') :: fields' =>
    rw [fieldChars_cons, List.append_assoc] at h
    exact absurd (List.head_eq_of_cons_eq h) (by decide)
  | (key, value) :: fields, [] =>
    rw [fieldChars_cons, List.append_assoc] at h
    exact absurd (List.head_eq_of_cons_eq h) (by decide)
  | (key, value) :: fields, (key', value') :: fields' =>
    rw [fieldChars_cons, fieldChars_cons, List.append_assoc, List.append_assoc] at h
    obtain ⟨rfl, hvalue⟩ := quote_append_inj h
    rw [List.cons_append, List.cons_append, List.append_assoc, List.append_assoc] at hvalue
    obtain ⟨rfl, htail⟩ := chars_append_inj value value' (ends_of_tail (Or.inr rfl))
      (ends_of_tail (Or.inr rfl)) (List.tail_eq_of_cons_eq hvalue)
    obtain ⟨rfl, hrest⟩ := fieldChars_append_inj fields fields'
      (tail_append_inj (Or.inr rfl) fieldChars_of_isEmpty fieldChars_of_isEmpty htail)
    exact ⟨rfl, hrest⟩

end

/-- **A compact text is the text of one value.** -/
theorem compact_injective : Function.Injective compact := by
  intro v v' h
  have hchars : v.chars ++ [] = v'.chars ++ [] := by
    rw [List.append_nil, List.append_nil]
    exact String.ofList_injective h
  exact (chars_append_inj v v' (by simp [Ends]) (by simp [Ends]) hchars).1

end GrammarTables.Text.Json
