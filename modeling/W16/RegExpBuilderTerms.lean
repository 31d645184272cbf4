import W16.RegExpTerms

/-!
# The terms that a builder holds

Characters, text and terms that are not put together yet, as one sequence of terms. Putting them
together does not change what the sequence matches.
-/
namespace W16.RegExps

open Preferences List

set_option linter.dupNamespace false

section Sequences

/-- Sequences of terms that differ in no more than how text is put together. -/
structure AlikeTerms (ts ts' : List RegExpTree) : Prop where
  sequence : ∀ env x, (RegExpTrees.ofList ts').sequence env x = (RegExpTrees.ofList ts).sequence env x
  captures : (RegExpTrees.ofList ts').captures = (RegExpTrees.ofList ts).captures
  maxMatch : ∀ closed, (∀ t ∈ ts', t.maxMatch closed = 0) → ∀ t ∈ ts, t.maxMatch closed = 0

variable {ts ts' ts'' us us' : List RegExpTree}

namespace AlikeTerms

theorem refl (ts : List RegExpTree) : AlikeTerms ts ts := ⟨fun _ _ => rfl, rfl, fun _ h => h⟩

theorem of_eq (h : ts = ts') : AlikeTerms ts ts' := h ▸ refl ts

theorem trans (h : AlikeTerms ts ts') (h' : AlikeTerms ts' ts'') : AlikeTerms ts ts'' :=
  ⟨fun env x => (h'.sequence env x).trans (h.sequence env x), h'.captures.trans h.captures,
    fun closed hzero => h.maxMatch closed (h'.maxMatch closed hzero)⟩

theorem append (h : AlikeTerms ts ts') (h' : AlikeTerms us us') : AlikeTerms (ts ++ us) (ts' ++ us') := by
  constructor
  · intro env x
    rw [sequence_append, sequence_append, h.sequence]
    exact flatMap_congr fun y _ => h'.sequence env y
  · rw [captures_append, captures_append, h.captures, h'.captures]
  · intro closed hzero
    rw [forall_mem_append] at hzero ⊢
    exact ⟨h.maxMatch closed hzero.1, h'.maxMatch closed hzero.2⟩

theorem alternative (h : AlikeTerms ts ts') :
    Alike (.alternative (.ofList ts)) (.alternative (.ofList ts')) := by
  constructor
  · intro env
    funext x
    exact h.sequence env x
  · exact h.captures
  · intro closed
    rw [RegExpTree.maxMatch, RegExpTree.maxMatch, sumMaxMatch_eq_zero, sumMaxMatch_eq_zero]
    exact fun hzero => ⟨rfl, h.maxMatch closed hzero.2⟩

end AlikeTerms

/-- A term that matches the empty string can be left out. -/
theorem alikeTerms_empty : AlikeTerms [.empty] [] := by
  constructor
  · intro env x
    rfl
  · rfl
  · intro closed _ t ht
    rw [mem_singleton.1 ht]
    rfl

/-- A single term is an alternative by itself. -/
theorem alike_singleton (t : RegExpTree) : Alike (.alternative (.ofList [t])) t := by
  constructor
  · intro env
    funext x
    exact (sequence_singleton env t x).symm
  · exact (captures_singleton t).symm
  simp [RegExpTree.maxMatch, sumMaxMatch_eq_zero]

theorem alike_empty : Alike (.alternative (.ofList [])) .empty :=
  ⟨fun _ => rfl, rfl, fun _ _ => rfl⟩

/-- A single alternative is a disjunction by itself. -/
theorem alike_disjunction (t : RegExpTree) : Alike (.disjunction (.ofList [t])) t := by
  constructor
  · intro env
    funext x
    exact (alternatives_singleton env t x).symm
  · exact (captures_singleton t).symm
  simp [RegExpTree.maxMatch, greatestMaxMatch_eq_zero]

end Sequences

section Text

theorem matchTests_append (subject : List Nat) (tests tests' : List (Nat → Bool)) (position : Nat) :
    matchTests subject (tests ++ tests') position =
      (matchTests subject tests position).bind (matchTests subject tests') := by
  induction tests generalizing position with
  | nil => rfl
  | cons test tests ih =>
    grind [matchTests]

theorem text_matcher (env : Env) (elements : List TextElement) (x : State) :
    (RegExpTree.text elements).matcher env x =
      ((matchTests env.subject (elements.flatMap (·.tests env)) x.position).map x.moveTo).toList :=
  rfl

/-- Text that makes the same tests. -/
theorem alikeTerms_text {elements elements' : List TextElement}
    (htests : ∀ env, elements'.flatMap (·.tests env) = elements.flatMap (·.tests env)) :
    AlikeTerms [.text elements] [.text elements'] := by
  constructor
  · simp [sequence_singleton, text_matcher, htests]
  · rfl
  · intro closed
    rw [forall_mem_singleton, forall_mem_singleton, RegExpTree.maxMatch,
      RegExpTree.maxMatch, textLength_eq ⟨[], false, fun _ => []⟩,
      textLength_eq ⟨[], false, fun _ => []⟩, htests]
    exact id

/-- Text behind other text. -/
theorem alikeTerms_append (elements elements' : List TextElement) :
    AlikeTerms [.text elements, .text elements'] [.text (elements ++ elements')] := by
  constructor
  · intro env x
    have hsnd := sequence_append env [.text elements] [.text elements'] x
    rw [sequence_singleton, text_matcher] at hsnd
    rw [sequence_singleton, text_matcher, flatMap_append, matchTests_append]
    refine Eq.trans ?_ hsnd.symm
    cases matchTests env.subject (elements.flatMap (·.tests env)) x.position with
    | none => rfl
    | some q =>
      rw [Option.map_some, Option.toList_some, flatMap_cons, flatMap_nil, append_nil,
        sequence_singleton]
      rfl
  · rfl
  simp [RegExpTree.maxMatch, textLength]

/-- A run of text is one text. -/
theorem alikeTerms_flatten (text : List (List TextElement)) (hne : text ≠ []) :
    AlikeTerms (text.map .text) [.text text.flatten] := by
  induction text with
  | nil => exact absurd rfl hne
  | cons elements text ih =>
    by_cases htext : text = []
    · subst htext
      rw [flatten_singleton]
      exact .refl _
    · exact ((AlikeTerms.refl [.text elements]).append (ih htext)).trans
        (alikeTerms_append elements text.flatten)

/-- A run of characters is one atom. -/
theorem alikeTerms_atom (characters : List Nat) (hne : characters ≠ []) :
    AlikeTerms (characters.map fun c => .text [.atom [c]]) [.text [.atom characters]] := by
  have hmap : (characters.map fun c => RegExpTree.text [.atom [c]]) =
      (characters.map fun c => [TextElement.atom [c]]).map .text := by
    rw [map_map]
    rfl
  rw [hmap]
  apply (alikeTerms_flatten _ (by simpa using hne)).trans
  apply alikeTerms_text
  intro env
  rw [flatMap_singleton, TextElement.tests]
  clear hmap hne
  induction characters with
  | nil => rfl
  | cons c characters ih =>
    rw [map_cons, ih, map_cons, flatten_cons, flatMap_append, flatMap_singleton]
    rfl

end Text

section Lists

namespace BufferedZoneList

variable {α : Type} {l l' : BufferedZoneList α} {v : α}

@[simp] theorem getList_empty : (empty : BufferedZoneList α).getList = [] := rfl

@[simp] theorem getList_add (l : BufferedZoneList α) (v : α) : (l.add v).getList = l.getList ++ [v] := rfl

theorem last_of_getList (h : l.getList = []) : l.last = none := by
  simp_all [getList]

theorem removeLast_of_getList (h : l.getList = []) : l.removeLast = none := by
  rw [removeLast, last_of_getList h]
  rfl

/-- What was added last is removed. -/
theorem removeLast_add (l : BufferedZoneList α) (v : α) :
    ∃ l', (l.add v).removeLast = some (v, l') ∧ l'.getList = l.getList := by
  refine ⟨_, rfl, ?_⟩
  cases hlast : l.last with
  | none => simp [add, getList, hlast, l.buffered hlast]
  | some v => simp [add, getList, hlast]

end BufferedZoneList

end Lists

section Flush

namespace RegExpBuilder

/-- The terms of the alternative that is being built, with each character on its own. -/
def flat (b : RegExpBuilder) : List RegExpTree :=
  b.terms.getList ++ b.text.getList.map .text ++ (b.characters.getD []).map fun c => RegExpTree.text [.atom [c]]

/-- Characters that are not flushed are at least one. -/
def Pending (b : RegExpBuilder) : Prop := b.characters ≠ some []

variable (b : RegExpBuilder)

@[simp] theorem flushCharacters_characters : b.flushCharacters.characters = none := by
  rw [flushCharacters]
  cases b.characters <;> simp

@[simp] theorem flushCharacters_terms : b.flushCharacters.terms = b.terms := by
  rw [flushCharacters]
  cases b.characters <;> simp

@[simp] theorem flushCharacters_alternatives : b.flushCharacters.alternatives = b.alternatives := by
  rw [flushCharacters]
  cases b.characters <;> simp

@[simp] theorem flushCharacters_pendingEmpty : b.flushCharacters.pendingEmpty = false := by
  rw [flushCharacters]
  cases b.characters <;> simp

theorem flushCharacters_flat (hb : b.Pending) : AlikeTerms b.flat b.flushCharacters.flat := by
  rw [flushCharacters]
  cases h : b.characters with
  | none => exact .of_eq (by simp [flat, h])
  | some characters =>
    have hne : characters ≠ [] := fun heq => hb (heq ▸ h)
    have hrun := (AlikeTerms.refl (b.terms.getList ++ b.text.getList.map .text)).append
      (alikeTerms_atom characters hne)
    simpa [flat, h] using hrun

@[simp] theorem flushText_characters : b.flushText.characters = none := by
  rw [flushText]
  split <;> simp

@[simp] theorem flushText_text : b.flushText.text.getList = [] := by
  rw [flushText]
  split
  · assumption
  · rfl
  · rfl

@[simp] theorem flushText_alternatives : b.flushText.alternatives = b.alternatives := by
  rw [flushText]
  split <;> simp

@[simp] theorem flushText_pendingEmpty : b.flushText.pendingEmpty = false := by
  rw [flushText]
  split <;> simp

theorem flat_of_flushed (htext : b.text.getList = []) (hchars : b.characters = none) :
    b.flat = b.terms.getList := by simp [flat, htext, hchars]

/-- Only terms are left. -/
theorem flushText_terms (hb : b.Pending) : AlikeTerms b.flat b.flushText.terms.getList := by
  apply (b.flushCharacters_flat hb).trans
  rw [flushText]
  split
  · next h => exact .of_eq (flat_of_flushed _ h (by simp))
  · next text h => exact .of_eq (by simp [flat, h])
  · next text hne hne' =>
    have hrun := (AlikeTerms.refl b.flushCharacters.terms.getList).append
      (alikeTerms_flatten b.flushCharacters.text.getList hne)
    simpa [flat] using hrun

/-- An alternative is finished. -/
theorem flushTerms_alternatives (hb : b.Pending) :
    ∃ alternative, b.flushTerms.alternatives.getList = b.alternatives.getList ++ [alternative] ∧
      Alike (.alternative (.ofList b.flat)) alternative := by
  have hterms := (b.flushText_terms hb).alternative
  refine ⟨_, by rw [flushTerms, BufferedZoneList.getList_add, flushText_alternatives], ?_⟩
  split
  · next h =>
    rw [h] at hterms
    exact hterms.trans alike_empty
  · next term h =>
    rw [h] at hterms
    exact hterms.trans (alike_singleton term)
  · exact hterms

theorem flushTerms_flat : b.flushTerms.flat = [] := by
  simp [flat, flushTerms]

theorem flushTerms_characters : b.flushTerms.characters = none := by
  simp [flushTerms]

theorem toRegExp_alike (ts : List RegExpTree) (alternative : RegExpTree)
    (h : b.flushTerms.alternatives.getList = ts ++ [alternative]) :
    Alike (.disjunction (.ofList (ts ++ [alternative]))) b.toRegExp := by
  rw [toRegExp, h]
  split
  · next h => simp at h
  · next t h =>
    rw [h]
    exact alike_disjunction t
  · exact .refl _

end RegExpBuilder

end Flush

section Add

/-- What an atom adds: nothing where it refers to a group that is not closed. -/
def Atom.kept (captures : Closed) : Atom → RegExpTree
  | .character c => .text [.atom [c]]
  | .backReference index => if (captures index).isNone then .empty else .backReference index
  | .tree t => t

/-- What a quantifier makes of a term. -/
def Quantifier.applied (captures : Closed) (quantifier : Quantifier) : RegExpTree → RegExpTree
  | .empty => .empty
  | .text elements =>
    .quantifier (.text elements) quantifier.min quantifier.max quantifier.isGreedy
  | t =>
    if t.maxMatch captures = 0 then if quantifier.min = 0 then .empty else t
    else .quantifier t quantifier.min quantifier.max quantifier.isGreedy

/-- A builder with one term more. -/
structure Adds (b : RegExpBuilder) (t : RegExpTree) (b' : RegExpBuilder) : Prop where
  flat : AlikeTerms (b.flat ++ [t]) b'.flat
  alternatives : b'.alternatives = b.alternatives
  pending : b'.Pending

namespace RegExpBuilder

variable (captures : Closed) (quantifier : Quantifier) (b : RegExpBuilder)

theorem adds_character (c : Nat) : Adds b (.text [.atom [c]]) (b.addCharacter c) where
  flat := .of_eq (by simp [flat, addCharacter])
  alternatives := rfl
  pending := by simp [Pending, addCharacter]

theorem adds_empty (hb : b.Pending) : Adds b .empty b.addEmpty where
  flat := by
    have hempty := (AlikeTerms.refl b.flat).append alikeTerms_empty
    rwa [append_nil] at hempty
  alternatives := rfl
  pending := hb

theorem adds_text (hb : b.Pending) (elements : List TextElement) :
    Adds b (.text elements) (b.addAtom (.text elements)) where
  flat := ((b.flushCharacters_flat hb).append (.refl _)).trans (.of_eq (by simp [flat, addAtom]))
  alternatives := by simp [addAtom]
  pending := by simp [Pending, addAtom]

/-- A term behind everything that has been flushed. -/
def withTerm (t : RegExpTree) : RegExpBuilder :=
  { b.flushText with terms := b.flushText.terms.add t }

theorem withTerm_flat (t : RegExpTree) : (b.withTerm t).flat = b.flushText.terms.getList ++ [t] := by
  simp [flat, withTerm]

theorem adds_withTerm {b b₁ : RegExpBuilder} (hb : b₁.Pending) (hflat : AlikeTerms b.flat b₁.flat)
    (halternatives : b₁.alternatives = b.alternatives) (t : RegExpTree) :
    Adds b t (b₁.withTerm t) where
  flat := by
    rw [withTerm_flat]
    exact (hflat.trans (b₁.flushText_terms hb)).append (.refl [t])
  alternatives := (flushText_alternatives b₁).trans halternatives
  pending := by simp [Pending, withTerm]

/-- Neither empty nor text. -/
def IsTerm : RegExpTree → Prop
  | .empty => False
  | .text _ => False
  | _ => True

theorem addAtom_eq {t : RegExpTree} (ht : IsTerm t) : b.addAtom t = b.withTerm t := by
  cases t <;> first | rfl | exact ht.elim

theorem applied_eq {t : RegExpTree} (ht : IsTerm t) : quantifier.applied captures t =
      if t.maxMatch captures = 0 then if quantifier.min = 0 then .empty else t
      else .quantifier t quantifier.min quantifier.max quantifier.isGreedy := by
  cases t <;> first | rfl | exact ht.elim

/-- Only the last one of the characters is repeated. -/
theorem quantify_character (c : Nat) :
    ∃ b', (b.addCharacter c).addQuantifierToAtom captures quantifier = some b' ∧
      Adds b (quantifier.applied captures (.text [.atom [c]])) b' := by
  by_cases hne : b.characters.getD [] = []
  · have hquantified : (b.addCharacter c).addQuantifierToAtom captures quantifier =
        some (RegExpBuilder.withTerm { b with pendingEmpty := false, characters := none }
          (quantifier.applied captures (.text [.atom [c]]))) := by
      simp [addQuantifierToAtom, addCharacter, hne, withTerm, Quantifier.applied]
    refine ⟨_, hquantified, adds_withTerm ?_ ?_ ?_ _⟩
    · simp [Pending]
    · exact .of_eq (by simp [flat, hne])
    · rfl
  · have hquantified : (b.addCharacter c).addQuantifierToAtom captures quantifier = some (RegExpBuilder.withTerm
          { b with
            pendingEmpty := false
            characters := none
            text := b.text.add [.atom (b.characters.getD [])] }
          (quantifier.applied captures (.text [.atom [c]]))) := by
      simp [addQuantifierToAtom, addCharacter, length_pos_iff.2 hne, withTerm, Quantifier.applied]
    refine ⟨_, hquantified, adds_withTerm ?_ ?_ ?_ _⟩
    · simp [Pending]
    · have hrun := (AlikeTerms.refl (b.terms.getList ++ b.text.getList.map .text)).append
        (alikeTerms_atom (b.characters.getD []) hne)
      simpa [flat] using hrun
    · rfl

theorem quantify_empty (hb : b.Pending) : ∃ b', b.addEmpty.addQuantifierToAtom captures quantifier = some b' ∧
      Adds b (quantifier.applied captures .empty) b' :=
  ⟨{ b with pendingEmpty := false }, rfl, (b.adds_empty hb).flat, rfl, hb⟩

theorem quantify_text (hb : b.Pending) (elements : List TextElement) :
    ∃ b', (b.addAtom (.text elements)).addQuantifierToAtom captures quantifier = some b' ∧
      Adds b (quantifier.applied captures (.text elements)) b' := by
  obtain ⟨text, hremove, hlist⟩ := b.flushCharacters.text.removeLast_add elements
  have hquantified : (b.addAtom (.text elements)).addQuantifierToAtom captures quantifier =
      some (RegExpBuilder.withTerm { b.flushCharacters with text := text }
        (quantifier.applied captures (.text elements))) := by
    simp [addQuantifierToAtom, addAtom, hremove, withTerm, Quantifier.applied]
  refine ⟨_, hquantified, adds_withTerm (by simp [Pending]) ?_ (by simp) _⟩
  exact (b.flushCharacters_flat hb).trans (.of_eq (by simp [flat, hlist]))

/-- A term that matches only the empty string is left out, or matched once. -/
theorem quantify_term (hb : b.Pending) {t : RegExpTree} (ht : IsTerm t) :
    ∃ b', (b.addAtom t).addQuantifierToAtom captures quantifier = some b' ∧
      Adds b (quantifier.applied captures t) b' := by
  obtain ⟨terms, hremove, hlist⟩ := b.flushText.terms.removeLast_add t
  have hflushed := b.flushText_terms hb
  have htext : b.flushText.text.removeLast = none :=
    BufferedZoneList.removeLast_of_getList b.flushText_text
  have hadds : ∀ s, Adds b s { b.flushText with terms := terms.add s } := by
    intro s
    constructor
    · apply (hflushed.append (.refl [s])).trans
      exact .of_eq (by simp [flat, hlist])
    · simp
    · simp [Pending]
  have hdropped : Adds b .empty { b.flushText with terms := terms } := by
    constructor
    · apply (hflushed.append alikeTerms_empty).trans
      exact .of_eq (by simp [flat, hlist])
    · simp
    · simp [Pending]
  rw [applied_eq captures quantifier ht, b.addAtom_eq ht]
  by_cases hzero : t.maxMatch captures = 0
  · by_cases hmin : quantifier.min = 0
    · simp_all [addQuantifierToAtom, withTerm]
    simp_all [addQuantifierToAtom, withTerm]
  simp_all [addQuantifierToAtom, withTerm]

theorem add_tree (hb : b.Pending) (t : RegExpTree) : Adds b t (b.addAtom t) := by
  cases t with
  | empty => exact b.adds_empty hb
  | text elements => exact b.adds_text hb elements
  | _ =>
    rw [addAtom_eq]
    · exact adds_withTerm hb (.refl _) rfl _
    · trivial

theorem quantify_tree (hb : b.Pending) (t : RegExpTree) :
    ∃ b', (b.addAtom t).addQuantifierToAtom captures quantifier = some b' ∧
      Adds b (quantifier.applied captures t) b' := by
  cases t with
  | empty => exact b.quantify_empty captures quantifier hb
  | text elements => exact b.quantify_text captures quantifier hb elements
  | _ => exact b.quantify_term captures quantifier hb trivial

theorem add_atom (hb : b.Pending) (atom : Atom) : Adds b (atom.kept captures) (b.add captures atom) := by
  cases atom with
  | character c => exact b.adds_character c
  | backReference index =>
    rw [Atom.kept, add]
    split
    · exact b.adds_empty hb
    · exact b.add_tree hb _
  | tree t => exact b.add_tree hb t

theorem quantify_atom (hb : b.Pending) (atom : Atom) :
    ∃ b', (b.add captures atom).addQuantifierToAtom captures quantifier = some b' ∧
      Adds b (quantifier.applied captures (atom.kept captures)) b' := by
  cases atom with
  | character c => exact b.quantify_character captures quantifier c
  | backReference index =>
    rw [Atom.kept, add]
    split
    · exact b.quantify_empty captures quantifier hb
    · exact b.quantify_tree captures quantifier hb _
  | tree t => exact b.quantify_tree captures quantifier hb t

end RegExpBuilder

/-- What a term is in the tree that is built. -/
def Atom.built (captures : Closed) (atom : Atom) : Option Quantifier → RegExpTree
  | none => atom.kept captures
  | some quantifier => quantifier.applied captures (atom.kept captures)

/-- An atom always comes before its quantifier. -/
theorem addTerm_adds (captures : Closed) {b : RegExpBuilder} (hb : b.Pending) (atom : Atom)
    (quantifier : Option Quantifier) :
    ∃ b', builderActions.addTerm captures b atom quantifier = some b' ∧
      Adds b (atom.built captures quantifier) b' := by
  cases quantifier with
  | none => exact ⟨_, rfl, b.add_atom captures hb atom⟩
  | some quantifier => exact b.quantify_atom captures quantifier hb atom

end Add

end W16.RegExps
