import GrammarTables.Grammar.Symbol
import GrammarTables.Text.Tex
import Mathlib.Data.List.Infix

/-!
# Proofs/Text/Tex — what replacing does to an escaped text

A text is replaced after names have been escaped and joined, so two things are to be told.

* **Pieces** (`replaceFrom_intercalate`).  No occurrence reaches over a separator without characters
  of its own, so the pieces between separators are replaced one by one.  Each of them is left as it
  is exactly when it has no occurrence (`replaceFrom_eq_self_iff`), as what is put is longer.
* **Escapes** (`KeepsEpsilon`).  Of the escape only this is asked: it leaves the word for the empty
  string as it is, and neither makes nor breaks an occurrence of it.  The escape of the program is
  such a one (`keepsEpsilon_escape`), for what stands for a special character begins and ends with
  no letter (`Fenced`).
-/

namespace GrammarTables

/-- The name holds the word for the empty string. -/
def HoldsEpsilon (name : String) : Prop :=
  Symbol.epsilonName.toList <:+: name.toList

instance {name : String} : Decidable (HoldsEpsilon name) :=
  inferInstanceAs (Decidable (Symbol.epsilonName.toList <:+: name.toList))

namespace Text.Tex

variable {c : Char} {cs ds old new sep word piece : List Char} {parts : List (List Char)}
  {skip : Nat}

/-! ## Pieces -/

/-- An occurrence ends before a character that it does not have. -/
theorem isPrefixOf_append_cons (cs ds : List Char) (hc : c ∉ old) :
    old.isPrefixOf (cs ++ c :: ds) = old.isPrefixOf cs := by
  induction cs generalizing old with
  | nil =>
    cases old with
    | nil => rfl
    | cons d old => simp [List.isPrefixOf, (List.ne_of_not_mem_cons hc).symm]
  | cons d cs ih =>
    cases old with
    | nil => rfl
    | cons e old =>
      rw [List.cons_append, List.isPrefixOf, List.isPrefixOf,
        ih (List.not_mem_of_not_mem_cons hc)]

section Replace

variable (hold : old ≠ [])

include hold

/-- A character that the replaced text does not have cuts the text in two, also while an occurrence
before it is being dropped. -/
theorem replaceFrom_append_cons (hc : c ∉ old) (hskip : skip ≤ cs.length) :
    replaceFrom old new skip (cs ++ c :: ds) =
      replaceFrom old new skip cs ++ c :: replaceFrom old new 0 ds := by
  induction cs generalizing skip with
  | nil =>
    obtain rfl := Nat.le_zero.mp hskip
    have hnot : old.isPrefixOf (c :: ds) = false := by
      have hcut := isPrefixOf_append_cons [] ds hc
      obtain ⟨d, old, rfl⟩ := List.exists_cons_of_ne_nil hold
      exact hcut
    rw [List.nil_append, replaceFrom, replaceFrom, hnot]
    rfl
  | cons d cs ih =>
    cases skip with
    | succ skip => exact ih (Nat.le_of_succ_le_succ hskip)
    | zero =>
      have hcut : old.isPrefixOf (d :: (cs ++ c :: ds)) = old.isPrefixOf (d :: cs) :=
        isPrefixOf_append_cons (d :: cs) ds hc
      rw [List.cons_append, replaceFrom, replaceFrom, hcut]
      split
      · next hprefix =>
        have hlength := (List.isPrefixOf_iff_prefix.mp hprefix).length_le
        rw [List.length_cons] at hlength
        rw [ih (by omega), List.append_assoc]
      · rw [ih (Nat.zero_le _), List.cons_append]

/-- A separator without characters of the replaced text stays, and keeps its sides apart. -/
theorem replaceFrom_append_append (cs ds : List Char) (hne : sep ≠ [])
    (hsep : ∀ c ∈ sep, c ∉ old) :
    replaceFrom old new 0 (cs ++ sep ++ ds) =
      replaceFrom old new 0 cs ++ sep ++ replaceFrom old new 0 ds := by
  induction sep generalizing cs with
  | nil => exact absurd rfl hne
  | cons c sep ih =>
    obtain ⟨hc, hsep⟩ := List.forall_mem_cons.mp hsep
    have hcut : cs ++ c :: sep ++ ds = cs ++ c :: (sep ++ ds) := by simp
    rw [hcut, replaceFrom_append_cons hold hc (Nat.zero_le _)]
    by_cases hnil : sep = []
    · simp [hnil]
    · have hrest := ih [] hnil hsep
      rw [List.nil_append] at hrest
      simp [hrest, replaceFrom]

/-- **Pieces are replaced one by one.** -/
theorem replaceFrom_intercalate (hne : sep ≠ []) (hsep : ∀ c ∈ sep, c ∉ old) :
    replaceFrom old new 0 (sep.intercalate parts) =
      sep.intercalate (parts.map (replaceFrom old new 0)) := by
  induction parts with
  | nil => rfl
  | cons part parts ih =>
    cases parts with
    | nil => rw [List.map_singleton, List.intercalate_singleton, List.intercalate_singleton]
    | cons next parts =>
      rw [List.intercalate_cons_cons, replaceFrom_append_append hold _ _ hne hsep, ih,
        List.map_cons, List.map_cons, List.map_cons, List.intercalate_cons_cons]

omit hold in
/-- Without an occurrence nothing is replaced. -/
theorem replaceFrom_of_not_infix (h : ¬ old <:+: cs) : replaceFrom old new 0 cs = cs := by
  induction cs with
  | nil => rfl
  | cons c cs ih =>
    rw [List.infix_cons_iff, not_or] at h
    rw [replaceFrom, if_neg (mt List.isPrefixOf_iff_prefix.mp h.1), ih h.2]

variable (hlength : old.length < new.length)

include hlength

/-- What is put is longer than what is dropped, save for the first `skip` characters, for which
nothing is put. -/
theorem length_le_length_replaceFrom (skip : Nat) (cs : List Char) :
    cs.length ≤ skip + (replaceFrom old new skip cs).length := by
  induction cs generalizing skip with
  | nil => exact Nat.zero_le _
  | cons c cs ih =>
    cases skip with
    | succ skip =>
      have hrest := ih skip
      rw [replaceFrom, List.length_cons]
      omega
    | zero =>
      have hold := List.length_pos_iff.mpr hold
      rw [replaceFrom, List.length_cons]
      split
      · have hrest := ih (old.length - 1)
        rw [List.length_append]
        omega
      · have hrest := ih 0
        rw [List.length_cons]
        omega

/-- An occurrence makes the text longer. -/
theorem length_lt_length_replaceFrom (h : old <:+: cs) :
    cs.length < (replaceFrom old new 0 cs).length := by
  induction cs with
  | nil => exact absurd (List.infix_nil.mp h) hold
  | cons c cs ih =>
    rw [replaceFrom, List.length_cons]
    split
    · have hrest := length_le_length_replaceFrom hold hlength (old.length - 1) cs
      have hold := List.length_pos_iff.mpr hold
      rw [List.length_append]
      omega
    · next hnot =>
      have hlater := (List.infix_cons_iff.mp h).resolve_left
        (mt List.isPrefixOf_iff_prefix.mpr hnot)
      rw [List.length_cons]
      exact Nat.succ_lt_succ (ih hlater)

/-- **Replacing by a longer text** leaves what has no occurrence, and only that. -/
theorem replaceFrom_eq_self_iff : replaceFrom old new 0 cs = cs ↔ ¬ old <:+: cs := by
  refine ⟨fun h hinfix => ?_, replaceFrom_of_not_infix⟩
  have hlonger := length_lt_length_replaceFrom hold hlength hinfix
  rw [h] at hlonger
  exact Nat.lt_irrefl _ hlonger

end Replace

/-! ## Escapes -/

/-- What is asked of the escape when the word for the empty string is replaced after it: it leaves
the word itself as it is, and neither makes nor breaks an occurrence of it in a name.  The word has
letters only, and these stand for themselves in LaTeX; what is put for a special character has marks
around it. -/
structure KeepsEpsilon (escape : String → String) : Prop where
  escape_epsilonName : escape Symbol.epsilonName = Symbol.epsilonName
  holds_iff (name : String) : HoldsEpsilon (escape name) ↔ HoldsEpsilon name

/-- No letter at either end, and not the word for the empty string inside. -/
structure Fenced (cs : List Char) : Prop where
  ne_nil : cs ≠ []
  head : ∀ c ∈ cs.head?, ¬ c.isAlpha
  last : ∀ c ∈ cs.getLast?, ¬ c.isAlpha
  not_infix : ¬ Symbol.epsilonName.toList <:+: cs

theorem fenced_iff : Fenced cs ↔ cs ≠ [] ∧ cs.head?.all (!Char.isAlpha ·) ∧
    cs.getLast?.all (!Char.isAlpha ·) ∧ ¬ Symbol.epsilonName.toList <:+: cs := by
  rw [Option.all_eq_true, Option.all_eq_true]
  exact ⟨fun h => ⟨h.ne_nil, by simpa using h.head, by simpa using h.last, h.not_infix⟩,
    fun h => ⟨h.1, by simpa using h.2.1, by simpa using h.2.2.1, h.2.2.2⟩⟩

instance : Decidable (Fenced cs) :=
  decidable_of_iff' _ fenced_iff

theorem isAlpha_of_mem_epsilonName (h : c ∈ Symbol.epsilonName.toList) : c.isAlpha := by
  have hall : Symbol.epsilonName.toList.all Char.isAlpha := by decide
  exact List.all_eq_true.mp hall c h

/-- A character is written as itself, or it is no letter and what it is written as is fenced. -/
theorem escapeChar_cases (c : Char) (next : Option Char) :
    escapeChar c next = [c] ∨ ¬ c.isAlpha ∧ Fenced (escapeChar c next) := by
  unfold escapeChar
  split
  · split
    · exact Or.inr (by decide +kernel)
    · exact Or.inl rfl
  all_goals first | exact Or.inl rfl | exact Or.inr (by decide +kernel)

/-- A word of letters stands at the beginning of the escaped text when it does so in the text. -/
theorem prefix_escapeChars_iff (hword : ∀ c ∈ word, c.isAlpha) :
    word <+: escapeChars cs ↔ word <+: cs := by
  induction word generalizing cs with
  | nil => exact iff_of_true List.nil_prefix List.nil_prefix
  | cons w word ih =>
    obtain ⟨hw, hword⟩ := List.forall_mem_cons.mp hword
    cases cs with
    | nil => exact Iff.rfl
    | cons c cs =>
      rw [escapeChars]
      rcases escapeChar_cases c cs.head? with hplain | ⟨hc, hfenced⟩
      · rw [hplain, List.singleton_append, List.cons_prefix_cons, List.cons_prefix_cons,
          ih hword]
      · obtain ⟨d, piece, hpiece⟩ := List.exists_cons_of_ne_nil hfenced.ne_nil
        have hd := hfenced.head
        rw [hpiece] at hd ⊢
        rw [List.cons_append, List.cons_prefix_cons, List.cons_prefix_cons]
        exact iff_of_false (fun h => hd d rfl (h.1 ▸ hw)) fun h => hc (h.1 ▸ hw)

/-- An occurrence does not reach out of what is fenced. -/
theorem Fenced.infix_append_iff (h : Fenced piece) :
    Symbol.epsilonName.toList <:+: piece ++ cs ↔ Symbol.epsilonName.toList <:+: cs := by
  refine ⟨fun hinfix => ?_, List.infix_append_of_infix_right⟩
  rcases List.infix_append_iff_ne_nil.mp hinfix with
    hinfix | hinfix | ⟨left, right, hne, -, hcut, hleft, -⟩
  · exact absurd hinfix h.not_infix
  · exact hinfix
  · obtain ⟨before, rfl⟩ := hleft
    have hletter : left.getLast hne ∈ Symbol.epsilonName.toList :=
      hcut ▸ List.mem_append_left right (List.getLast_mem hne)
    refine absurd (isAlpha_of_mem_epsilonName hletter) (h.last _ ?_)
    rw [List.getLast?_append, List.getLast?_eq_some_getLast hne]
    rfl

/-- Escaping the characters neither makes nor breaks the word for the empty string. -/
theorem infix_escapeChars_iff :
    Symbol.epsilonName.toList <:+: escapeChars cs ↔ Symbol.epsilonName.toList <:+: cs := by
  induction cs with
  | nil => exact Iff.rfl
  | cons c cs ih =>
    have hhere : Symbol.epsilonName.toList <+: escapeChars (c :: cs) ↔
        Symbol.epsilonName.toList <+: c :: cs :=
      prefix_escapeChars_iff fun d hd => isAlpha_of_mem_epsilonName hd
    rw [List.infix_cons_iff, ← hhere, ← ih, escapeChars]
    rcases escapeChar_cases c cs.head? with hplain | ⟨hc, hfenced⟩
    · rw [hplain, List.singleton_append, List.infix_cons_iff]
    · rw [hfenced.infix_append_iff]
      refine ⟨Or.inr, fun h => h.elim (fun hprefix => ?_) id⟩
      exact hfenced.infix_append_iff.mp hprefix.isInfix

/-- **The escape of the program** does what is asked. -/
theorem keepsEpsilon_escape : KeepsEpsilon escape where
  escape_epsilonName := by
    have hplain : escapeChars Symbol.epsilonName.toList = Symbol.epsilonName.toList := by decide
    rw [escape, hplain, String.ofList_toList]
  holds_iff name := by
    rw [HoldsEpsilon, HoldsEpsilon, escape, String.toList_ofList, infix_escapeChars_iff]

end Text.Tex

end GrammarTables
