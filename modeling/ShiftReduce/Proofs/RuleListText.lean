import Mathlib.Data.List.Forall2
import ShiftReduce.Proofs.JsonExactness
import ShiftReduce.Proofs.JsonWriter
import ShiftReduce.RuleList

/-! # Rule lists as text

A JSON value is a rule list when it is an array of rules in one of their spellings (`SpellsRules`), and just
these are accepted (`ruleListOfJson?_eq_some`). What is written is one of the spellings, so a rule list that
is written is read back (`readRuleList?_write`). -/

namespace ShiftReduce

open Json (Literal IsElement)

/-! ## Spellings -/

/-- The value is a text. -/
def SpellsText (s : String) (v : Json Literal) : Prop := ∃ l : Literal, v = .string l ∧ l.text? = some s

/-- The value is an array of texts. -/
def SpellsBody (body : List String) (v : Json Literal) : Prop :=
  ∃ elements, v = .array elements ∧ List.Forall₂ SpellsText body elements

/-- The values of the members whose key denotes a text. -/
def valuesOf (key : String) (members : List (Literal × Json Literal)) : List (Json Literal) :=
  (members.filter fun m => m.1.text? = some key).map (·.2)

/-- The value is a rule. -/
inductive SpellsRule : RuleDef → Json Literal → Prop
  /-- an object with a head and a body, in any order and among other members -/
  | object {head : String} {body : List String} {members : List (Literal × Json Literal)}
    {v w : Json Literal} : (∀ m ∈ members, ∃ key, m.1.text? = some key) →
    valuesOf "head" members = [v] → SpellsText head v →
    valuesOf "body" members = [w] → SpellsBody body w → SpellsRule ⟨head, body⟩ (.object members)
  /-- an object with a head and no body -/
  | objectWithoutBody {head : String} {members : List (Literal × Json Literal)} {v : Json Literal} :
    (∀ m ∈ members, ∃ key, m.1.text? = some key) →
    valuesOf "head" members = [v] → SpellsText head v → valuesOf "body" members = [] →
    SpellsRule ⟨head, []⟩ (.object members)
  /-- an array of a head and a body -/
  | array {head : String} {body : List String} {v w : Json Literal} :
    SpellsText head v → SpellsBody body w → SpellsRule ⟨head, body⟩ (.array [v, w])
  /-- an array of a head only -/
  | arrayWithoutBody {head : String} {v : Json Literal} :
    SpellsText head v → SpellsRule ⟨head, []⟩ (.array [v])

/-- The value is a rule list. -/
def SpellsRules (defs : List RuleDef) (v : Json Literal) : Prop :=
  ∃ elements, v = .array elements ∧ List.Forall₂ SpellsRule defs elements

/-! ## What is accepted -/

/-- A text is read from a value that spells it. -/
theorem textOfJson?_eq_some {v : Json Literal} {s : String} :
    textOfJson? v = some s ↔ SpellsText s v := by
  cases v <;> simp [textOfJson?, SpellsText]

/-- The elements of a list are read one by one. -/
theorem mapM_eq_some_iff_forall₂ {α β : Type} {f : α → Option β} {r : β → α → Prop}
    (h : ∀ a b, f a = some b ↔ r b a) {l : List α} {bs : List β} :
    l.mapM f = some bs ↔ List.Forall₂ r bs l := by
  induction l generalizing bs with
  | nil => simp [eq_comm]
  | cons a l ih =>
    rw [List.mapM_cons, Option.bind_eq_bind, Option.bind_eq_some_iff, List.forall₂_cons_right_iff]
    simp only [Option.bind_eq_bind, Option.bind_eq_some_iff, Option.pure_def, Option.some.injEq, ih, h]
    constructor
    · rintro ⟨b, hb, rest, hrest, rfl⟩
      exact ⟨b, rest, hb, hrest, rfl⟩
    · rintro ⟨b, rest, hb, hrest, rfl⟩
      exact ⟨b, hb, rest, hrest, rfl⟩

/-- A body is read from a value that spells it. -/
theorem bodyOfJson?_eq_some {v : Json Literal} {body : List String} :
    bodyOfJson? v = some body ↔ SpellsBody body v := by
  cases v with
  | array elements =>
    simp only [bodyOfJson?, SpellsBody, Json.array.injEq, exists_eq_left']
    exact mapM_eq_some_iff_forall₂ fun a b => textOfJson?_eq_some
  | _ => simp [bodyOfJson?, SpellsBody]

/-- A member that may come once is read from its values: it stays as it is when there are none. -/
inductive Fills {α : Type} (read? : Json Literal → Option α) :
    Option α → List (Json Literal) → Option α → Prop
  /-- there is no value -/
  | absent (old : Option α) : Fills read? old [] old
  /-- there is one value -/
  | present {v : Json Literal} {a : α} : read? v = some a → Fills read? none [v] (some a)

/-- The first of the values is read when there was none before it. -/
theorem fills_cons {α : Type} {read? : Json Literal → Option α} {old new : Option α}
    {v : Json Literal} {vs : List (Json Literal)} :
    Fills read? old (v :: vs) new ↔ old = none ∧ ∃ a, read? v = some a ∧ Fills read? (some a) vs new := by
  constructor
  · rintro ⟨hv⟩
    exact ⟨rfl, _, ‹_›, .absent _⟩
  · rintro ⟨rfl, a, hv, h⟩
    cases h
    exact .present hv

/-- A member that may come once is read from no value or from one. -/
theorem Fills.absent_or_present {α : Type} {read? : Json Literal → Option α} {new : Option α}
    {vs : List (Json Literal)} (h : Fills read? none vs new) :
    vs = [] ∧ new = none ∨ ∃ v a, vs = [v] ∧ read? v = some a ∧ new = some a := by
  cases h with
  | absent => exact Or.inl ⟨rfl, rfl⟩
  | present hv => exact Or.inr ⟨_, _, rfl, hv, rfl⟩

/-- No members have no values. -/
@[simp] theorem valuesOf_nil (key : String) : valuesOf key [] = [] := rfl

/-- The first member adds its value when its key is the one that is asked for. -/
theorem valuesOf_cons (key : String) (m : Literal × Json Literal)
    (members : List (Literal × Json Literal)) :
    valuesOf key (m :: members) =
      if m.1.text? = some key then m.2 :: valuesOf key members else valuesOf key members := by
  unfold valuesOf
  by_cases h : m.1.text? = some key <;> simp [h]

namespace RuleMembers

variable {m m' : RuleMembers} {k : Literal} {v : Json Literal}

/-- A head is read once, from a text. -/
theorem add?_head (hk : k.text? = some "head") : m.add? k v = some m' ↔
    m.head = none ∧ ∃ head, textOfJson? v = some head ∧ m' = { m with head := some head } := by
  unfold add?
  cases m.head <;> simp [hk, Option.map_eq_some_iff, eq_comm (a := m')]

/-- A body is read once, from an array of texts. -/
theorem add?_body (hk : k.text? = some "body") : m.add? k v = some m' ↔
    m.body = none ∧ ∃ body, bodyOfJson? v = some body ∧ m' = { m with body := some body } := by
  unfold add?
  cases m.body <;> simp [hk, Option.map_eq_some_iff, eq_comm (a := m')]

/-- A member with any other key is passed over. -/
theorem add?_other {key : String} (hk : k.text? = some key) (hhead : key ≠ "head")
    (hbody : key ≠ "body") : m.add? k v = some m' ↔ m = m' := by
  unfold add?
  rw [hk]
  split <;> simp_all

end RuleMembers

/-- The members of a rule are read from the values of the two keys, and all keys have to be texts. -/
theorem foldlM_add?_eq_some {members : List (Literal × Json Literal)} {m m' : RuleMembers} :
    members.foldlM (fun m e => m.add? e.1 e.2) m = some m' ↔
      (∀ e ∈ members, ∃ key, e.1.text? = some key) ∧
        Fills textOfJson? m.head (valuesOf "head" members) m'.head ∧
        Fills bodyOfJson? m.body (valuesOf "body" members) m'.body := by
  induction members generalizing m with
  | nil =>
    obtain ⟨head, body⟩ := m
    obtain ⟨head', body'⟩ := m'
    constructor
    · rintro h
      cases h
      exact ⟨fun _ h => absurd h List.not_mem_nil, .absent _, .absent _⟩
    · rintro ⟨-, hhead, hbody⟩
      cases hhead
      cases hbody
      rfl
  | cons e members ih =>
    obtain ⟨k, v⟩ := e
    rw [List.foldlM_cons, Option.bind_eq_bind, Option.bind_eq_some_iff]
    simp only [ih, List.forall_mem_cons, valuesOf_cons]
    cases hk : k.text? with
    | none =>
      have hadd : m.add? k v = none := by
        unfold RuleMembers.add?
        rw [hk]
      simp [hadd]
    | some key =>
      by_cases hhead : key = "head"
      · subst hhead
        simp only [RuleMembers.add?_head hk, Option.some.injEq, String.reduceEq, if_true, if_false,
          fills_cons]
        constructor
        · rintro ⟨_, ⟨hnone, head, hv, rfl⟩, hkeys, hheads, hbodies⟩
          exact ⟨⟨⟨_, rfl⟩, hkeys⟩, ⟨hnone, head, hv, hheads⟩, hbodies⟩
        · rintro ⟨⟨-, hkeys⟩, ⟨hnone, head, hv, hheads⟩, hbodies⟩
          exact ⟨_, ⟨hnone, head, hv, rfl⟩, hkeys, hheads, hbodies⟩
      · by_cases hbody : key = "body"
        · subst hbody
          simp only [RuleMembers.add?_body hk, Option.some.injEq, String.reduceEq, if_true, if_false,
            fills_cons]
          constructor
          · rintro ⟨_, ⟨hnone, body, hv, rfl⟩, hkeys, hheads, hbodies⟩
            exact ⟨⟨⟨_, rfl⟩, hkeys⟩, hheads, hnone, body, hv, hbodies⟩
          · rintro ⟨⟨-, hkeys⟩, hheads, hnone, body, hv, hbodies⟩
            exact ⟨_, ⟨hnone, body, hv, rfl⟩, hkeys, hheads, hbodies⟩
        · simp [RuleMembers.add?_other hk hhead hbody, hhead, hbody]

/-- **A value is accepted as a rule when it is one of its spellings.** -/
theorem ofJson?_eq_some {v : Json Literal} {d : RuleDef} : RuleDef.ofJson? v = some d ↔ SpellsRule d v := by
  constructor
  · intro h
    unfold RuleDef.ofJson? at h
    split at h
    · next members =>
      obtain ⟨m, hm, h⟩ := Option.bind_eq_some_iff.mp h
      obtain ⟨head, hhead, h⟩ := Option.bind_eq_some_iff.mp h
      obtain ⟨hkeys, hheads, hbodies⟩ := foldlM_add?_eq_some.mp hm
      cases h
      rcases hheads.absent_or_present with ⟨-, hnone⟩ | ⟨v, head', hvs, hv, hsome⟩
      · rw [hnone] at hhead
        cases hhead
      · obtain rfl := Option.some.inj (hsome.symm.trans hhead)
        have hv := textOfJson?_eq_some.mp hv
        rcases hbodies.absent_or_present with ⟨hws, hnone⟩ | ⟨w, body, hws, hw, hsome⟩
        · rw [hnone]
          exact .objectWithoutBody hkeys hvs hv hws
        · rw [hsome]
          exact .object hkeys hvs hv hws (bodyOfJson?_eq_some.mp hw)
    · next v =>
      obtain ⟨head, hhead, rfl⟩ := Option.map_eq_some_iff.mp h
      exact .arrayWithoutBody (textOfJson?_eq_some.mp hhead)
    · next v w =>
      obtain ⟨head, hhead, h⟩ := Option.bind_eq_some_iff.mp h
      obtain ⟨body, hbody, h⟩ := Option.bind_eq_some_iff.mp h
      cases h
      exact .array (textOfJson?_eq_some.mp hhead) (bodyOfJson?_eq_some.mp hbody)
    · cases h
  · intro h
    cases h with
    | @object head body members v w hkeys hheads hhead hbodies hbody =>
      have hm : members.foldlM (fun m e => m.add? e.1 e.2) {} =
          some (⟨some head, some body⟩ : RuleMembers) := foldlM_add?_eq_some.mpr
        ⟨hkeys, hheads ▸ .present (textOfJson?_eq_some.mpr hhead),
          hbodies ▸ .present (bodyOfJson?_eq_some.mpr hbody)⟩
      simp [RuleDef.ofJson?, hm]
    | @objectWithoutBody head members v hkeys hheads hhead hbodies =>
      have hm : members.foldlM (fun m e => m.add? e.1 e.2) {} =
          some (⟨some head, none⟩ : RuleMembers) := foldlM_add?_eq_some.mpr
        ⟨hkeys, hheads ▸ .present (textOfJson?_eq_some.mpr hhead), hbodies ▸ .absent _⟩
      simp [RuleDef.ofJson?, hm]
    | array hhead hbody =>
      simp [RuleDef.ofJson?, textOfJson?_eq_some.mpr hhead, bodyOfJson?_eq_some.mpr hbody]
    | arrayWithoutBody hhead => simp [RuleDef.ofJson?, textOfJson?_eq_some.mpr hhead]

/-- **A value is accepted as a rule list when it is an array of rules in any spelling.** -/
theorem ruleListOfJson?_eq_some {v : Json Literal} {defs : List RuleDef} :
    ruleListOfJson? v = some defs ↔ SpellsRules defs v := by
  cases v with
  | array elements =>
    simp only [ruleListOfJson?, SpellsRules, Json.array.injEq, exists_eq_left']
    exact mapM_eq_some_iff_forall₂ fun a b => ofJson?_eq_some
  | _ => simp [ruleListOfJson?, SpellsRules]

/-! ## Writing and reading -/

/-- The elements of an array are turned into literals one by one. -/
theorem elementLiterals_eq_map (vs : List (Json String)) :
    Json.elementLiterals vs = vs.map Json.literals := by
  induction vs with
  | nil => rfl
  | cons v vs ih => rw [Json.elementLiterals, ih, List.map_cons]

/-- A text spells itself. -/
theorem spellsText_literals (s : String) : SpellsText s (Json.literals (.string s)) :=
  ⟨_, rfl, Json.text?_literalOf s⟩

/-- A list of texts spells itself. -/
theorem spellsBody_literals (body : List String) : SpellsBody body (Json.literals (.ofStrings body)) := by
  refine ⟨_, rfl, ?_⟩
  rw [elementLiterals_eq_map, List.map_map, List.forall₂_map_right_iff, List.forall₂_same]
  exact fun s _ => spellsText_literals s

/-- A rule is written as an object with a head and a body. -/
theorem spellsRule_literals (d : RuleDef) : SpellsRule d (Json.literals d.toJson) := by
  have hmembers : Json.literals d.toJson = .object
      [(Json.literalOf "head", Json.literals (.string d.head)),
        (Json.literalOf "body", Json.literals (.ofStrings d.body))] := rfl
  have hhead := Json.text?_literalOf "head"
  have hbody := Json.text?_literalOf "body"
  rw [hmembers]
  refine .object ?_ ?_ (spellsText_literals d.head) ?_ (spellsBody_literals d.body)
  · simp [hhead, hbody]
  · simp [valuesOf_cons, hhead, hbody]
  · simp [valuesOf_cons, hhead, hbody]

/-- **The value written for a rule list spells the rule list.** -/
theorem spellsRules_literals (defs : List RuleDef) :
    SpellsRules defs (Json.literals (ruleListToJson defs)) := by
  refine ⟨_, rfl, ?_⟩
  rw [elementLiterals_eq_map, List.map_map, List.forall₂_map_right_iff, List.forall₂_same]
  exact fun d _ => spellsRule_literals d

/-- Every rule list can be written. -/
theorem isWritable_ruleListToJson (defs : List RuleDef) : Json.IsWritable (ruleListToJson defs) := by
  refine .array fun v hv => ?_
  obtain ⟨d, -, rfl⟩ := List.mem_map.mp hv
  refine .object fun m hm => ?_
  rcases List.mem_cons.mp hm with rfl | hm
  · exact .string d.head
  · rw [List.mem_singleton.mp hm]
    exact Json.isWritable_ofStrings d.body

/-- **Just the texts of the grammar whose value spells a rule list are read.** -/
theorem readRuleList?_eq_some {text : String} {defs : List RuleDef} :
    readRuleList? text = some defs ↔ ∃ v, IsElement v text.toList ∧ SpellsRules defs v := by
  simp only [readRuleList?, Option.bind_eq_some_iff, Json.read?_eq_some, ruleListOfJson?_eq_some]

/-- **A rule list that is written in any layout is read back.** -/
theorem readRuleList?_write {layout : Json.Layout} (hl : layout.IsBlank) (defs : List RuleDef) :
    readRuleList? ((ruleListToJson defs).write layout 0) = some defs :=
  readRuleList?_eq_some.mpr
    ⟨_, Json.isElement_write hl (isWritable_ruleListToJson defs), spellsRules_literals defs⟩

/-- **Reading a rule list undoes writing it.** Both texts of a rule list are texts of the grammar and read
as the list. Of all texts just those of the grammar are read whose value spells a rule list, and what is
read reads the same again when it is written. -/
theorem readRuleList?_roundTrip :
    (∀ defs : List RuleDef,
      ∀ text ∈ [(ruleListToJson defs).compact, (ruleListToJson defs).indented],
        IsElement (Json.literals (ruleListToJson defs)) text.toList ∧
          readRuleList? text = some defs) ∧
    (∀ (text : String) (defs : List RuleDef),
      readRuleList? text = some defs ↔ ∃ v, IsElement v text.toList ∧ SpellsRules defs v) ∧
    (∀ (text : String) (defs : List RuleDef), readRuleList? text = some defs →
      readRuleList? (ruleListToJson defs).compact = some defs ∧
        readRuleList? (ruleListToJson defs).indented = some defs) := by
  have hwrite {layout : Json.Layout} (hl : layout.IsBlank) (defs : List RuleDef) :
      IsElement (Json.literals (ruleListToJson defs))
          ((ruleListToJson defs).write layout 0).toList ∧
        readRuleList? ((ruleListToJson defs).write layout 0) = some defs :=
    ⟨Json.isElement_write hl (isWritable_ruleListToJson defs), readRuleList?_write hl defs⟩
  refine ⟨fun defs text htext => ?_, fun text defs => readRuleList?_eq_some,
    fun text defs _ => ⟨(hwrite Json.Layout.isBlank_compact defs).2,
      (hwrite Json.Layout.isBlank_indented defs).2⟩⟩
  rcases List.mem_cons.mp htext with rfl | htext
  · exact hwrite Json.Layout.isBlank_compact defs
  · rw [List.mem_singleton.mp htext]
    exact hwrite Json.Layout.isBlank_indented defs

/-- Rules in several spellings: members in another order, a member that is skipped, keys and texts with
escapes, arrays, and no body. -/
def spellings : String :=
  " [ \x7b\"body\" : [\"\\u00e9\", \"\\ud83d\\ude00\\n\"],\n\"x\": [1e5, \x7b\"y\": null\x7d]," ++
    "\"h\\u0065ad\": \"S\"\x7d, [\"S\"], [\"S\", [\"\\\"\"]],\r\x7b\"head\":\"S\"\x7d\t]"

/-- Rules in several spellings are written in one and read again. -/
theorem readRuleList?_roundTrip_spellings :
    readRuleList? spellings =
      some [⟨"S", ["é", "😀\n"]⟩, ⟨"S", []⟩, ⟨"S", ["\""]⟩, ⟨"S", []⟩] ∧
    readRuleList? (ruleListToJson
      [⟨"S", ["é", "😀\n"]⟩, ⟨"S", []⟩, ⟨"S", ["\""]⟩, ⟨"S", []⟩]).compact =
        some [⟨"S", ["é", "😀\n"]⟩, ⟨"S", []⟩, ⟨"S", ["\""]⟩, ⟨"S", []⟩] ∧
    ∃ v, IsElement v spellings.toList ∧
      SpellsRules [⟨"S", ["é", "😀\n"]⟩, ⟨"S", []⟩, ⟨"S", ["\""]⟩, ⟨"S", []⟩] v := by
  have hread : readRuleList? spellings =
      some [⟨"S", ["é", "😀\n"]⟩, ⟨"S", []⟩, ⟨"S", ["\""]⟩, ⟨"S", []⟩] := by decide +kernel
  exact ⟨hread, (readRuleList?_roundTrip.2.2 _ _ hread).1,
    (readRuleList?_roundTrip.2.1 _ _).mp hread⟩

end ShiftReduce
