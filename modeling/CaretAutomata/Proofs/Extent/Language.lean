import Mathlib.Computability.Language
import CaretAutomata.Extent.Basic

/-!
# The language of a tree

`Extent.language` is what the notation promises: a leaf stands for its character, parts follow one
another, alternatives are alternatives, and a repetition stands for any number of occurrences of its
body, none included.

Two leaves may carry the same character, so a word does not tell which leaves it was read from.
`traces` does: it is the same language with the *leaves* for letters, numbered from left to right
as the states of the automaton are. `language_eq_map` forgets the difference again. Everything about
the automaton is proved of traces and only at the very end of words.
-/

namespace CaretAutomata.Extent

open Computability

mutual

/-- The words that a tree stands for. -/
def language : Extent → Language Char
  | leaf c => {[c]}
  | concatenation parts => languageParts parts
  | union alternatives => languageAlternatives alternatives
  | repetition body => body.language∗

def languageParts : List Extent → Language Char
  | [] => 1
  | part :: others => part.language * languageParts others

def languageAlternatives : List Extent → Language Char
  | [] => 0
  | alternative :: others => alternative.language + languageAlternatives others

end

mutual

/-- The words of a tree as sequences of leaves, the first of which has the number `n`. -/
def traces : Extent → (n : Nat) → Language Nat
  | leaf _, n => {[n]}
  | concatenation parts, n => tracesParts parts n
  | union alternatives, n => tracesAlternatives alternatives n
  | repetition body, n => (body.traces n)∗

def tracesParts : List Extent → (n : Nat) → Language Nat
  | [], _ => 1
  | part :: others, n => part.traces n * tracesParts others (n + part.leafCount)

def tracesAlternatives : List Extent → (n : Nat) → Language Nat
  | [], _ => 0
  | alternative :: others, n =>
    alternative.traces n + tracesAlternatives others (n + alternative.leafCount)

end

/-! ## Leaves and their characters -/

mutual

def characters : Extent → List Char
  | leaf c => [c]
  | concatenation parts => charactersAll parts
  | union alternatives => charactersAll alternatives
  | repetition body => body.characters

def charactersAll : List Extent → List Char
  | [] => []
  | e :: others => e.characters ++ charactersAll others

end

mutual

/-- `letter` gives the leaves, numbered from `n` on, the characters that they have. -/
def Lettered (letter : Nat → Char) : Extent → (n : Nat) → Prop
  | leaf c, n => letter n = c
  | concatenation parts, n => LetteredAll letter parts n
  | union alternatives, n => LetteredAll letter alternatives n
  | repetition body, n => body.Lettered letter n

def LetteredAll (letter : Nat → Char) : List Extent → (n : Nat) → Prop
  | [], _ => True
  | e :: others, n => e.Lettered letter n ∧ LetteredAll letter others (n + e.leafCount)

end

mutual

theorem length_characters : ∀ e : Extent, e.characters.length = e.leafCount
  | leaf _ => rfl
  | concatenation parts => length_charactersAll parts
  | union alternatives => length_charactersAll alternatives
  | repetition body => length_characters body

theorem length_charactersAll : ∀ es : List Extent, (charactersAll es).length = leafCountAll es
  | [] => rfl
  | e :: others => by
    rw [charactersAll, List.length_append, length_characters e, length_charactersAll others]
    rfl

end

mutual

/-- The characters of the leaves, in order, are a way to give each of them its own. -/
theorem lettered_of_characters {letter : Nat → Char} : ∀ (e : Extent) (n : Nat),
    (∀ i c, e.characters[i]? = some c → letter (n + i) = c) → e.Lettered letter n
  | leaf c, _, h => h 0 c rfl
  | concatenation parts, n, h => letteredAll_of_characters parts n h
  | union alternatives, n, h => letteredAll_of_characters alternatives n h
  | repetition body, n, h => lettered_of_characters body n h

theorem letteredAll_of_characters {letter : Nat → Char} : ∀ (es : List Extent) (n : Nat),
    (∀ i c, (charactersAll es)[i]? = some c → letter (n + i) = c) → LetteredAll letter es n
  | [], _, _ => trivial
  | e :: others, n, h => by
    refine ⟨lettered_of_characters e n fun i c hc => h i c ?_,
      letteredAll_of_characters others _ fun i c hc => ?_⟩
    · rw [charactersAll, List.getElem?_append_left (List.getElem?_eq_some_iff.mp hc).1, hc]
    · rw [Nat.add_assoc]
      refine h _ c ?_
      rw [charactersAll, ← length_characters e, List.getElem?_append_right (Nat.le_add_right _ _),
        Nat.add_sub_cancel_left, hc]

end

/-- The character of a leaf, the leaves being numbered from `1` on. -/
def letter (e : Extent) (x : Nat) : Char := e.characters.getD (x - 1) default

theorem lettered_letter (e : Extent) : e.Lettered e.letter 1 :=
  lettered_of_characters e 1 fun i c hc => by
    rw [letter, Nat.add_sub_cancel_left, List.getD_eq_getElem?_getD, hc, Option.getD_some]

/-- The character of a leaf is the one at its place. -/
theorem letter_eq_iff {e : Extent} {x : Nat} {c : Char} (hx : 1 ≤ x) (hx' : x < 1 + e.leafCount) :
    e.letter x = c ↔ e.characters[x - 1]? = some c := by
  have hlength := e.length_characters
  have hlt : x - 1 < e.characters.length := by omega
  rw [letter, List.getD_eq_getElem?_getD, List.getElem?_eq_getElem hlt, Option.getD_some,
    Option.some.injEq]

/-- Leaves with different characters can be told apart. -/
theorem letter_injective {e : Extent} (h : e.characters.Nodup) {x y : Nat} (hx : 1 ≤ x)
    (hx' : x < 1 + e.leafCount) (hy : 1 ≤ y) (hy' : y < 1 + e.leafCount)
    (heq : e.letter x = e.letter y) : x = y := by
  have hlength := e.length_characters
  have hi : x - 1 < e.characters.length := by omega
  have hj : y - 1 < e.characters.length := by omega
  rw [letter, letter, List.getD_eq_getElem?_getD, List.getD_eq_getElem?_getD,
    List.getElem?_eq_getElem hi, List.getElem?_eq_getElem hj] at heq
  have := (h.getElem_inj_iff).mp heq
  omega

mutual

/-- **Words are traces with the leaves' characters in place of the leaves.** -/
theorem language_eq_map {letter : Nat → Char} : ∀ (e : Extent) (n : Nat), e.Lettered letter n →
    e.language = (e.traces n).map letter
  | leaf c, n, h => by
    show ({[c]} : Set (List Char)) = List.map letter '' {[n]}
    rw [Set.image_singleton, List.map_singleton, show letter n = c from h]
  | concatenation parts, n, h => languageParts_eq_map parts n h
  | union alternatives, n, h => languageAlternatives_eq_map alternatives n h
  | repetition body, n, h => by
    rw [language, traces, Language.map_kstar, language_eq_map body n h]

theorem languageParts_eq_map {letter : Nat → Char} : ∀ (es : List Extent) (n : Nat),
    LetteredAll letter es n → languageParts es = (tracesParts es n).map letter
  | [], _, _ => by rw [languageParts, tracesParts, map_one]
  | e :: others, n, h => by
    rw [languageParts, tracesParts, map_mul, language_eq_map e n h.1,
      languageParts_eq_map others _ h.2]

theorem languageAlternatives_eq_map {letter : Nat → Char} : ∀ (es : List Extent) (n : Nat),
    LetteredAll letter es n → languageAlternatives es = (tracesAlternatives es n).map letter
  | [], _, _ => by rw [languageAlternatives, tracesAlternatives, map_zero]
  | e :: others, n, h => by
    rw [languageAlternatives, tracesAlternatives, map_add, language_eq_map e n h.1,
      languageAlternatives_eq_map others _ h.2]

end

end CaretAutomata.Extent
