import Workflow.Proofs.Json.Shape.Form
import Workflow.Proofs.Json.Skipping

/-! Tagged values are read from text as they are decoded from the value that the text reads as.

Tag and content may come in either order, with other members before, between and behind them. -/
namespace Workflow

namespace Assoc
variable {α : Type} {k : String} {value : α} {l l' : List (String × α)}

theorem Distinct.split (h : Distinct (l ++ (k, value) :: l')) :
    (∀ e ∈ l, e.1 ≠ k) ∧ (∀ e ∈ l', e.1 ≠ k) ∧ Distinct l' := by
  have hkeys : (l.map Prod.fst ++ k :: l'.map Prod.fst).Nodup := by simpa [Distinct] using h
  obtain ⟨-, hright, hapart⟩ := List.nodup_append.mp hkeys
  obtain ⟨hk, hl'⟩ := List.nodup_cons.mp hright
  refine ⟨?_, ?_, hl'⟩
  · intro e he
    exact hapart e.1 (List.mem_map_of_mem he) k List.mem_cons_self
  · rintro e he rfl
    exact hk (List.mem_map_of_mem he)

theorem find?_mid (h : Distinct (l ++ (k, value) :: l')) :
    find? k (l ++ (k, value) :: l') = some value :=
  (find?_eq_some_iff h).mpr (by simp)

theorem find?_behind {key : String} (hl : ∀ e ∈ l, e.1 ≠ key) (hk : k ≠ key) :
    find? key (l ++ (k, value) :: l') = find? key l' := by
  induction l with
  | nil => simp [find?, hk]
  | cons e l ih =>
    obtain ⟨k', v⟩ := e
    obtain ⟨he, hl⟩ := List.forall_mem_cons.mp hl
    simp [find?, he, ih hl]

end Assoc

namespace Json

variable {s r t : List Char} {d : Nat} {ms : List (String × Json)} {tagKey contentKey : String}
  {variants : List (String × Form)}

section Members

/-- None of the members is the tag or the content. -/
def Irrelevant (tagKey contentKey : String) (ms : List (String × Json)) : Prop :=
  ∀ m ∈ ms, m.1 ≠ tagKey ∧ m.1 ≠ contentKey

/-- The next relevant one of some members, with the text behind its key. -/
inductive Meets (tagKey contentKey : String) (ms : List (String × Json)) (r : List Char) :
    Except Failure (Option String × List Char) → Prop
  | none (h : Irrelevant tagKey contentKey ms) :
    Meets tagKey contentKey ms r (.ok (none, '\x7d' :: r))
  | some {passed rest : List (String × Json)} {k : String} {v : Json} {r₂ r₃ r₄ : List Char}
    (hms : ms = passed ++ (k, v) :: rest) (hpassed : Irrelevant tagKey contentKey passed)
    (hk : k = tagKey ∨ k = contentKey) (hc : colon r₂ = .ok r₃)
    (hv : Reads (.value v) r₃ r₄) (hrest : Reads (.members false rest) r₄ r) :
    Meets tagKey contentKey ms r (.ok (some k, r₂))

theorem meets_nextRelevant {first : Bool} {count : List Char} (tagKey contentKey : String)
    (h : Reads (.members first ms) s r) (hcount : s.length ≤ count.length) :
    Meets tagKey contentKey ms r (Shape.nextRelevant tagKey contentKey count first s) := by
  have hlt := h.length_lt
  obtain ⟨y, count, rfl⟩ := List.exists_cons_of_length_pos (l := count) (by omega)
  simp only [List.length_cons] at hcount
  induction ms generalizing first s y count with
  | nil =>
    cases h with
    | membersEnd h =>
      obtain ⟨t, hs, rfl⟩ := nextKey_end h
      simp only [Shape.nextRelevant, h, ok_bind, Bool.false_eq_true, if_false]
      exact .none nofun
  | cons m ms ih =>
    cases h with
    | @member _ k v _ _ r₁ r₂ r₃ r₄ _ h hk hc hv hs =>
      have := length_of_nextKey h
      have := consumes_text _ _ _ hk
      have := length_of_skipBlanks (skipBlanks_of_colon hc)
      have := hv.length_lt
      have := hs.length_lt
      obtain ⟨y', count, rfl⟩ := List.exists_cons_of_length_pos (l := count) (by omega)
      simp only [List.length_cons] at hcount
      rw [Shape.nextRelevant, h]
      simp only [ok_bind, if_true, hk]
      split
      next hrelevant => exact .some (List.nil_append _).symm nofun hrelevant hc hv hs
      next hrelevant =>
        have hhere : (k, v).1 ≠ tagKey ∧ (k, v).1 ≠ contentKey := not_or.mp hrelevant
        simp only [hc, ok_bind, skipValue_of_reads hv]
        have hlater := ih hs hs.length_lt y' count (by omega)
        generalize Shape.nextRelevant tagKey contentKey (y' :: count) false r₄ = e at hlater
        cases hlater with
        | none hnone => exact .none (List.forall_mem_cons.mpr ⟨hhere, hnone⟩)
        | @some passed rest k' v' _ _ _ hms hpassed hk' hc' hv' hrest =>
          subst hms
          exact .some (List.cons_append ..).symm
            (List.forall_mem_cons.mpr ⟨hhere, hpassed⟩) hk' hc' hv' hrest

theorem gives_readTaggedEnd (result : Json) (h : Reads (.members false ms) s r)
    (hms : Irrelevant tagKey contentKey ms) :
    Gives (Shape.readTaggedEnd tagKey contentKey result s) r (· = result) := by
  have hmeets := meets_nextRelevant tagKey contentKey h (Nat.le_refl _)
  unfold Shape.readTaggedEnd
  generalize Shape.nextRelevant tagKey contentKey s false s = e at hmeets
  cases hmeets with
  | none => exact gives_ok result r
  | @some passed rest k v _ _ _ heq _ hk =>
    obtain ⟨htag, hcontent⟩ := hms (k, v) (by simp [heq])
    exact absurd hk (not_or.mpr ⟨htag, hcontent⟩)

end Members

section Object
variable {name : String} {x : Json}

theorem decode_tagged_object_iff :
    (Shape.tagged name tagKey contentKey variants).decode (.obj ms) = .ok x ↔
    ∃ tag content tag' content', Assoc.find? tagKey ms = some tag ∧
      Assoc.find? contentKey ms = some content ∧
      (Shape.tagForm variants).decode tag = .ok tag' ∧
      (Shape.contentForm variants tag').decode content = .ok content' ∧
      x = object [(tagKey, tag'), (contentKey, content')] := by
  rw [Shape.decode]
  cases htag : Assoc.find? tagKey ms with
  | none => simp
  | some tag =>
    cases hcontent : Assoc.find? contentKey ms with
    | none =>
      constructor
      · intro h
        obtain ⟨tag', -, h⟩ := bind_eq_ok_iff.mp h
        cases h
      · rintro ⟨_, _, _, _, -, ⟨⟩, -⟩
    | some content =>
      simp only [bind_eq_ok_iff]
      constructor
      · rintro ⟨tag', htag', content', hcontent', h⟩
        cases h
        exact ⟨tag, content, tag', content', rfl, rfl, htag', hcontent', rfl⟩
      · rintro ⟨_, _, tag', content', ⟨⟩, ⟨⟩, htag', hcontent', rfl⟩
        exact ⟨tag', htag', content', hcontent', rfl⟩

/-- A tagged object whose tag was read first. -/
theorem gives_readContent {tag : Json} (hne : tagKey ≠ contentKey)
    (h : Reads (.members false ms) s r) (hkeys : Assoc.Distinct ms)
    (hall : ∀ m ∈ ms, m.2.Distinct) (hms : ∀ m ∈ ms, m.1 ≠ tagKey) :
    Gives (Shape.readContent d tagKey contentKey variants tag s) r (fun x =>
      ∃ content content', Assoc.find? contentKey ms = some content ∧ content.depth ≤ d ∧
        (Shape.contentForm variants tag).decode content.canonical = .ok content' ∧
        x = object [(tagKey, tag), (contentKey, content')]) := by
  have hmeets := meets_nextRelevant tagKey contentKey h (Nat.le_refl _)
  unfold Shape.readContent
  generalize Shape.nextRelevant tagKey contentKey s false s = e at hmeets
  cases hmeets with
  | none hnone =>
    have hfind : Assoc.find? contentKey ms = none :=
      Assoc.find?_eq_none_iff.mpr fun m hm => (hnone m hm).2
    refine gives_error ?_
    rintro x ⟨content, content', hcontent, -⟩
    cases hfind.symm.trans hcontent
  | @some passed rest k v _ _ _ heq _ hk hc hv hrest =>
    subst heq
    obtain rfl : k = contentKey := hk.resolve_left (hms (k, v) (by simp))
    obtain ⟨-, hafter, -⟩ := hkeys.split
    have hirrelevant : Irrelevant tagKey k rest :=
      fun m hm => ⟨hms m (by simp [hm]), hafter m hm⟩
    simp only [ok_bind, if_neg (Ne.symm hne), hc]
    refine ((Form.gives_read _ hv (hall (k, v) (by simp))).bind fun content' _ =>
      gives_readTaggedEnd (object [(tagKey, tag), (k, content')]) hrest hirrelevant).congr
        fun x => ?_
    simp only [Assoc.find?_mid hkeys, Option.some.injEq]
    constructor
    · rintro ⟨content', ⟨hd, hcontent'⟩, rfl⟩
      exact ⟨v, content', rfl, hd, hcontent', rfl⟩
    · rintro ⟨_, content', rfl, hd, hcontent', rfl⟩
      exact ⟨content', ⟨hd, hcontent'⟩, rfl⟩

/-- A tagged object whose content was read first. -/
theorem gives_readLateTag {content : Json} (hne : tagKey ≠ contentKey)
    (h : Reads (.members false ms) s r) (hkeys : Assoc.Distinct ms)
    (hall : ∀ m ∈ ms, m.2.Distinct) (hms : ∀ m ∈ ms, m.1 ≠ contentKey) :
    Gives (Shape.readLateTag d tagKey contentKey variants content s) r (fun x =>
      ∃ tag tag' content', Assoc.find? tagKey ms = some tag ∧ tag.depth ≤ d ∧
        (Shape.tagForm variants).decode tag.canonical = .ok tag' ∧
        (Shape.contentForm variants tag').decode content = .ok content' ∧
        x = object [(tagKey, tag'), (contentKey, content')]) := by
  have hmeets := meets_nextRelevant tagKey contentKey h (Nat.le_refl _)
  unfold Shape.readLateTag
  generalize Shape.nextRelevant tagKey contentKey s false s = e at hmeets
  cases hmeets with
  | none hnone =>
    have hfind : Assoc.find? tagKey ms = none :=
      Assoc.find?_eq_none_iff.mpr fun m hm => (hnone m hm).1
    refine gives_error ?_
    rintro x ⟨tag, tag', content', htag, -⟩
    cases hfind.symm.trans htag
  | @some passed rest k v _ _ r₄ heq _ hk hc hv hrest =>
    subst heq
    obtain rfl : k = tagKey := hk.resolve_right (hms (k, v) (by simp))
    obtain ⟨-, hafter, -⟩ := hkeys.split
    have hirrelevant : Irrelevant k contentKey rest :=
      fun m hm => ⟨hafter m hm, hms m (by simp [hm])⟩
    simp only [ok_bind, if_neg hne, hc]
    refine ((Form.gives_read _ hv (hall (k, v) (by simp))).bind fun tag' _ =>
        gives_fitting_bind fun content' _ =>
      gives_readTaggedEnd (object [(k, tag'), (contentKey, content')]) hrest hirrelevant).congr
        fun x => ?_
    simp only [Assoc.find?_mid hkeys, Option.some.injEq]
    constructor
    · rintro ⟨tag', ⟨hd, htag'⟩, content', hcontent', rfl⟩
      exact ⟨v, tag', content', rfl, hd, htag', hcontent', rfl⟩
    · rintro ⟨_, tag', content', rfl, hd, htag', hcontent', rfl⟩
      exact ⟨tag', ⟨hd, htag'⟩, content', hcontent', rfl⟩

/-- What is decoded of the members in canonical form, in terms of the members themselves. -/
theorem decode_tagged_canonical_iff (hkeys : Assoc.Distinct ms) :
    ((∀ m ∈ ms, m.1 = tagKey ∨ m.1 = contentKey → m.2.depth ≤ d) ∧
      (Shape.tagged name tagKey contentKey variants).decode (Json.obj ms).canonical = .ok x) ↔
    ∃ tag content tag' content', Assoc.find? tagKey ms = some tag ∧
      Assoc.find? contentKey ms = some content ∧ tag.depth ≤ d ∧ content.depth ≤ d ∧
      (Shape.tagForm variants).decode tag.canonical = .ok tag' ∧
      (Shape.contentForm variants tag').decode content.canonical = .ok content' ∧
      x = object [(tagKey, tag'), (contentKey, content')] := by
  have hfind (k : String) :
      Assoc.find? k (Assoc.ofList (canonicalMembers ms)) = (Assoc.find? k ms).map canonical := by
    rw [Assoc.find?_ofList (distinct_canonicalMembers hkeys), find?_canonicalMembers]
  rw [canonical, object, decode_tagged_object_iff]
  simp only [hfind, Option.map_eq_some_iff]
  constructor
  · rintro ⟨hdepth, _, _, tag', content', ⟨tag, htag, rfl⟩, ⟨content, hcontent, rfl⟩,
      htag', hcontent', rfl⟩
    have hd := hdepth _ ((Assoc.find?_eq_some_iff hkeys).mp htag) (.inl rfl)
    have hd' := hdepth _ ((Assoc.find?_eq_some_iff hkeys).mp hcontent) (.inr rfl)
    exact ⟨tag, content, tag', content', htag, hcontent, hd, hd', htag', hcontent', rfl⟩
  · rintro ⟨tag, content, tag', content', htag, hcontent, hd, hd', htag', hcontent', rfl⟩
    refine ⟨?_, _, _, tag', content', ⟨tag, htag, rfl⟩, ⟨content, hcontent, rfl⟩, htag',
      hcontent', rfl⟩
    rintro ⟨k, v⟩ hm (rfl | rfl)
    · cases htag.symm.trans ((Assoc.find?_eq_some_iff hkeys).mpr hm)
      exact hd
    · cases hcontent.symm.trans ((Assoc.find?_eq_some_iff hkeys).mpr hm)
      exact hd'

theorem gives_readTagged (name : String) (hne : tagKey ≠ contentKey)
    (h : Reads (.members true ms) t r) (hkeys : Assoc.Distinct ms)
    (hall : ∀ m ∈ ms, m.2.Distinct) :
    Gives (Shape.readTagged d tagKey contentKey variants t) r (fun x =>
      (∀ m ∈ ms, m.1 = tagKey ∨ m.1 = contentKey → m.2.depth ≤ d) ∧
        (Shape.tagged name tagKey contentKey variants).decode (Json.obj ms).canonical = .ok x) := by
  refine Gives.congr ?_ fun x => (decode_tagged_canonical_iff hkeys).symm
  have hmeets := meets_nextRelevant tagKey contentKey h (Nat.le_refl _)
  unfold Shape.readTagged
  generalize Shape.nextRelevant tagKey contentKey t true t = e at hmeets
  cases hmeets with
  | none hnone =>
    have hfind : Assoc.find? tagKey ms = none :=
      Assoc.find?_eq_none_iff.mpr fun m hm => (hnone m hm).1
    refine gives_error ?_
    rintro x ⟨tag, content, tag', content', htag, -⟩
    cases hfind.symm.trans htag
  | @some passed rest k v _ _ r₄ heq hpassed hk hc hv hrest =>
    subst heq
    obtain ⟨-, hafter, hrestkeys⟩ := hkeys.split
    have hvall := hall (k, v) (by simp)
    have hrestall : ∀ m ∈ rest, m.2.Distinct := fun m hm => hall m (by simp [hm])
    simp only [ok_bind, hc]
    split
    next htagKey =>
      subst htagKey
      refine ((Form.gives_read _ hv hvall).bind fun tag' _ =>
        gives_readContent hne hrest hrestkeys hrestall hafter).congr fun x => ?_
      rw [Assoc.find?_mid hkeys, Assoc.find?_behind (fun e he => (hpassed e he).2) hne]
      constructor
      · rintro ⟨tag', ⟨hd, htag'⟩, content, content', hcontent, hd', hcontent', rfl⟩
        exact ⟨v, content, tag', content', rfl, hcontent, hd, hd', htag', hcontent', rfl⟩
      · rintro ⟨_, content, tag', content', ⟨⟩, hcontent, hd, hd', htag', hcontent', rfl⟩
        exact ⟨tag', ⟨hd, htag'⟩, content, content', hcontent, hd', hcontent', rfl⟩
    next htagKey =>
      obtain rfl := hk.resolve_left htagKey
      refine ((gives_value hv hvall).bind fun content _ =>
        gives_readLateTag hne hrest hrestkeys hrestall hafter).congr fun x => ?_
      rw [Assoc.find?_mid hkeys, Assoc.find?_behind (fun e he => (hpassed e he).1) htagKey]
      constructor
      · rintro ⟨_, ⟨hd', rfl⟩, tag, tag', content', htag, hd, htag', hcontent', rfl⟩
        exact ⟨tag, v, tag', content', htag, rfl, hd, hd', htag', hcontent', rfl⟩
      · rintro ⟨tag, _, tag', content', htag, ⟨⟩, hd, hd', htag', hcontent', rfl⟩
        exact ⟨_, ⟨hd', rfl⟩, tag, tag', content', htag, hd, htag', hcontent', rfl⟩

end Object

section Pair
variable {name : String} {x u : Json} {vs : List Json}

theorem decode_tagged_list_iff :
    (Shape.tagged name tagKey contentKey variants).decode (.arr vs) = .ok x ↔
    ∃ tag content tag' content', vs = [tag, content] ∧
      Shape.decodeTag variants tag = .ok tag' ∧
      (Shape.contentForm variants tag').decode content = .ok content' ∧
      x = object [(tagKey, tag'), (contentKey, content')] := by
  match vs with
  | [] => simp [Shape.decode]
  | [tag] => simp [Shape.decode, bind_eq_ok_iff]
  | tag :: content :: extra =>
    simp only [Shape.decode, bind_eq_ok_iff]
    constructor
    · rintro ⟨tag', htag', content', hcontent', h⟩
      cases extra with
      | cons e es => cases h
      | nil =>
        cases h
        exact ⟨tag, content, tag', content', rfl, htag', hcontent', rfl⟩
    · rintro ⟨_, _, tag', content', ⟨⟩, htag', hcontent', rfl⟩
      exact ⟨tag', htag', content', hcontent', rfl⟩

theorem gives_readTag (h : Reads (.value u) s r) :
    Gives (readTag variants s) r (fun x => Shape.decodeTag variants u.canonical = .ok x) := by
  unfold readTag
  split
  next t hs =>
    obtain ⟨k, rfl, hk⟩ := h.eq_text hs
    exact gives_text hk
  next hs =>
    refine gives_nothing (wrongType_ne_ok _ _) fun x hx => ?_
    cases u with
    | str k =>
      obtain ⟨t, ht⟩ := h.text_head
      exact hs t ht
    | _ => cases hx

theorem depth_of_decodeTag {variants : List (String × Form)}
    (h : Shape.decodeTag variants u.canonical = .ok x) :
    u.depth = 0 := by
  cases u with
  | arr | obj => cases h
  | _ => rfl

theorem gives_readPair (name : String) (h : Reads (.items true vs) t r)
    (hall : ∀ v ∈ vs, v.Distinct) :
    Gives (Shape.readPair d name tagKey contentKey variants t) r (fun x =>
      (∀ v ∈ vs, v.depth ≤ d) ∧
        (Shape.tagged name tagKey contentKey variants).decode (Json.arr vs).canonical = .ok x) := by
  rw [canonical]
  simp only [decode_tagged_list_iff]
  unfold Shape.readPair
  cases h with
  | itemsEnd h =>
    rw [h]
    refine gives_error ?_
    rintro x ⟨-, _, _, _, _, hvs, -⟩
    cases hvs
  | @item _ tag vs _ r₁ r₂ _ h htag hvs =>
    simp only [h, ok_bind, if_true]
    cases hvs with
    | itemsEnd h' =>
      refine gives_nothing ?_ ?_
      · intro x hx
        obtain ⟨⟨tag', r'⟩, htag', hx⟩ := bind_eq_ok_iff.mp hx
        obtain ⟨rfl, -⟩ := (gives_readTag htag tag' r').mp htag'
        simp only [h', ok_bind] at hx
        cases hx
      · rintro x ⟨-, _, _, _, _, hvs, -⟩
        cases hvs
    | @item _ content vs _ r₃ r₄ _ h' hcontent hvs =>
      have hcontentall := hall content (by simp)
      cases vs with
      | nil =>
        refine ((gives_readTag htag).bind (R := fun tag' x => ∃ content', (content.depth ≤ d ∧
          (Shape.contentForm variants tag').decode content.canonical = .ok content') ∧
          x = object [(tagKey, tag'), (contentKey, content')]) fun tag' _ => ?_).congr fun x => ?_
        · simp only [h', ok_bind, if_true]
          refine (Form.gives_read _ hcontent hcontentall).bind fun content' _ => ?_
          simp only [endItems_end hvs, ok_bind]
          exact gives_ok _ r
        · constructor
          · rintro ⟨tag', htag', content', ⟨hd, hcontent'⟩, rfl⟩
            have hdtag : tag.depth ≤ d := depth_of_decodeTag htag' ▸ Nat.zero_le d
            exact ⟨by simp [hdtag, hd], _, _, tag', content', rfl, htag', hcontent', rfl⟩
          · rintro ⟨hdepth, _, _, tag', content', ⟨⟩, htag', hcontent', rfl⟩
            exact ⟨tag', htag', content', ⟨hdepth content (by simp), hcontent'⟩, rfl⟩
      | cons v vs =>
        refine gives_nothing ?_ ?_
        · intro x hx
          obtain ⟨⟨tag', r'⟩, htag', hx⟩ := bind_eq_ok_iff.mp hx
          obtain ⟨rfl, -⟩ := (gives_readTag htag tag' r').mp htag'
          simp only [h', ok_bind, if_true] at hx
          obtain ⟨⟨content', r'⟩, hcontent', hx⟩ := bind_eq_ok_iff.mp hx
          obtain ⟨rfl, -⟩ := (Form.gives_read _ hcontent hcontentall content' r').mp hcontent'
          obtain ⟨r'', hend, -⟩ := bind_eq_ok_iff.mp hx
          cases hvs with
          | item hnext => exact endItems_item hnext hend
        · rintro x ⟨-, _, _, _, _, hvs, -⟩
          cases hvs

end Pair

end Json

end Workflow
