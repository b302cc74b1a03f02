import Resumable.Proofs.Assembly.Fields
import Resumable.Proofs.Assembly.Items

/-!
# What each production takes

The first reading steps over the body of a function by its parentheses alone; the second reads it item
by item. Both come to the same token, so the text is cut into the parts that are read by one production
each: fields, heads of functions, items of bodies, and the parentheses that close bodies and the unit.
-/

namespace Resumable.Assembly

open List

/-- The items of a body, each read from the tokens of one part, up to `rest`. -/
inductive ItemsRead (scope : Scope) (rest : List Token) :
    CodeUnit × BodyDraft → List (List Token) → CodeUnit × BodyDraft → Prop
  | done {s : CodeUnit × BodyDraft} : ItemsRead scope rest s [] s
  | item {s s₁ s' : CodeUnit × BodyDraft} {part : List Token} {parts : List (List Token)}
      (hitem : Yields (BodyParser.item scope) s (part ++ (parts.flatten ++ rest)) () s₁
        (parts.flatten ++ rest))
      (hparts : ItemsRead scope rest s₁ parts s') : ItemsRead scope rest s (part :: parts) s'

/-- Both readings of the rest of a unit. The first goes from the draft `d` to `d'`, and the second
completes the functions among these fields, from the unit `u` to `u'`. -/
inductive UnitRead (scope : Scope) : Draft → CodeUnit → List (List Token) → Draft → CodeUnit → Prop
  | close {d : Draft} {u : CodeUnit} {t : Token} (ht : t.kind = .rparen) :
      UnitRead scope d u [[t]] d u
  | field {d d₁ d' : Draft} {u u' : CodeUnit} {part : List Token} {parts : List (List Token)}
      (hfield : Yields DraftParser.field d (part ++ parts.flatten) () d₁ parts.flatten)
      (hpending : d₁.pending = d.pending) (hparts : UnitRead scope d₁ u parts d' u') :
      UnitRead scope d u (part :: parts) d' u'
  | function {d d₁ d' : Draft} {u u₁ u' : CodeUnit} {p : Pending} {head : List Token}
      {items parts : List (List Token)} {t : Token} {s : CodeUnit × BodyDraft}
      -- The first reading takes the head, keeps the body for later and steps over it,
      (hfield : Yields DraftParser.field d (head ++ p.body) () d₁ parts.flatten)
      (hpending : d₁.pending = d.pending ++ [p])
      (hskip : Parser.balanced 0 (head ++ p.body) = .ok parts.flatten)
      -- and the second comes to the same token, one item after the other.
      (hbody : Yields (BodyParser.items scope (p.body.length + 1)) (u, {}) p.body () s parts.flatten)
      (hitems : ItemsRead scope (t :: parts.flatten) (u, {}) items s) (ht : t.kind = .rparen)
      (hcut : p.body = items.flatten ++ t :: parts.flatten) (hcomplete : p.complete scope u = .ok u₁)
      (hparts : UnitRead scope d₁ u₁ parts d' u') :
      UnitRead scope d u (head :: (items ++ [t] :: parts)) d' u'

variable {scope : Scope} {ts ts' : List Token} {most : Nat} {a : Unit}

/-- The items of a body end where its parentheses say. -/
theorem itemsRead_of_items {s s' : CodeUnit × BodyDraft}
    (h : Yields (BodyParser.items scope most) s ts a s' ts') :
    Parser.balanced 1 ts = .ok ts' ∧ ∃ parts t, t.kind = .rparen ∧ ts = parts.flatten ++ t :: ts' ∧
      ItemsRead scope (t :: ts') s parts s' := by
  induction most generalizing s ts with
  | zero => exact absurd (yields_attempt.mp h).1 reject_ne_ok
  | succ most ih =>
    simp only [BodyParser.items, yields_bind, yields_lift, Parser.gives_peek] at h
    obtain ⟨_, _, _, ⟨⟨rfl, -⟩, rfl⟩, h⟩ := h
    split at h
    next =>
      obtain ⟨hclose, rfl⟩ := yields_lift.mp h
      obtain ⟨t, rfl, ht⟩ := Parser.gives_close.mp hclose
      refine ⟨?_, [], t, ht, rfl, .done⟩
      rw [Parser.balanced, ht]
      rfl
    next =>
      obtain ⟨_, s₁, mid, hitem, h⟩ := yields_bind.mp h
      obtain ⟨hbalanced, parts, t, ht, rfl, hparts⟩ := ih h
      -- An item does not change where the search for the closing parenthesis ends.
      have htaken := (step_of_item hitem).2
      obtain ⟨part, rfl⟩ := htaken.suffix
      refine ⟨(htaken.balanced 0).trans hbalanced, part :: parts, t, ht, ?_, .item hitem hparts⟩
      rw [flatten_cons, append_assoc]

theorem items_of_complete {p : Pending} {u u' : CodeUnit} (h : p.complete scope u = .ok u') :
    ∃ s rest, Yields (BodyParser.items scope (p.body.length + 1)) (u, {}) p.body () s rest := by
  obtain ⟨f, -, h⟩ := bind_eq_ok.mp h
  obtain ⟨⟨⟨_, s⟩, rest⟩, hitems, -⟩ := bind_eq_ok.mp (Attempt.mapError_eq_ok_iff.mp h)
  exact ⟨s, rest, hitems⟩

/-- The functions that the fields leave for later are completed in their order, so the second reading
can be followed along the first. -/
theorem unitRead_of_fields {d d' : Draft} (scope : Scope)
    (h : Yields (DraftParser.fields most) d ts a d' []) :
    ∃ ps, d'.pending = d.pending ++ ps ∧ ∀ u u', ps.foldlM (Pending.complete scope) u = .ok u' →
      ∃ parts, ts = parts.flatten ∧ UnitRead scope d u parts d' u' := by
  -- The second reading is only known once all fields are read, so the functions `ps` that are left for it
  -- are found first, and what completes them is a hypothesis of the rest.
  induction most generalizing d ts with
  | zero => exact absurd (yields_attempt.mp h).1 reject_ne_ok
  | succ most ih =>
    simp only [DraftParser.fields, yields_bind, yields_lift, Parser.gives_peek] at h
    obtain ⟨_, _, _, ⟨⟨rfl, -⟩, rfl⟩, h⟩ := h
    split at h
    next =>
      obtain ⟨hclose, rfl⟩ := yields_lift.mp h
      obtain ⟨t, rfl, ht⟩ := Parser.gives_close.mp hclose
      refine ⟨[], (append_nil _).symm, fun u u' hu => ?_⟩
      cases hu
      exact ⟨[[t]], rfl, .close ht⟩
    next =>
      obtain ⟨_, d₁, mid, hfield, h⟩ := yields_bind.mp h
      obtain ⟨ps, hps, hrest⟩ := ih h
      cases (step_of_field hfield).2 with
      | whole htaken hpending =>
        refine ⟨ps, hpending ▸ hps, fun u u' hu => ?_⟩
        obtain ⟨parts, rfl, hparts⟩ := hrest u u' hu
        obtain ⟨part, rfl⟩ := htaken
        exact ⟨part :: parts, rfl, .field hfield hpending hparts⟩
      | @function head p hhead hpending hskip hbody =>
        refine ⟨p :: ps, by rw [hps, hpending, append_assoc]; rfl, fun u u' hu => ?_⟩
        obtain ⟨u₁, hcomplete, hu⟩ := bind_eq_ok.mp hu
        obtain ⟨parts, rfl, hparts⟩ := hrest u₁ u' hu
        obtain ⟨s, rest, hread⟩ := items_of_complete hcomplete
        obtain ⟨hbalanced, items, t, ht, hcut, hitems⟩ := itemsRead_of_items hread
        -- Behind the head one parenthesis is open, for the search as for the items, so both readings come
        -- to the same token.
        cases hbalanced.symm.trans hbody
        subst hhead
        refine ⟨head :: (items ++ [t] :: parts), ?_,
          .function hfield hpending hskip hread hitems ht hcut hcomplete hparts⟩
        rw [flatten_cons, flatten_append, hcut]
        rfl

/-- **The two readings agree on where functions end**, and every token of an accepted text is read by
exactly one production. -/
theorem readings_agree {tokens : List Token} {u : CodeUnit} (h : unitOf tokens = .ok u) :
    ∃ (x y : Token) (parts : List (List Token)) (d : Draft), x.kind = .lparen ∧ y.kind = .ident ∧
      y.text = "unit" ∧ tokens = [x, y] ++ parts.flatten ∧ Yields DraftParser.unit {} tokens () d [] ∧
        UnitRead d.scope {} d.unit parts d u := by
  obtain ⟨⟨⟨_, d⟩, rest⟩, hunit, hu⟩ := bind_eq_ok.mp h
  obtain ⟨rfl, x, y, ts, most, hx, hy, hword, rfl, hfields⟩ := fields_of_unit hunit
  obtain ⟨ps, hps, hread⟩ := unitRead_of_fields d.scope hfields
  obtain rfl : ps = d.pending := hps.symm
  obtain ⟨parts, rfl, hparts⟩ := hread d.unit u hu
  exact ⟨x, y, parts, d, hx, hy, hword, rfl, hunit, hparts⟩

/-- Forms inside of forms, a table of labels, and a function that is called before it is read. -/
def nestedSource : Text :=
  "(unit (class Late Error) (func $main (param int) (stack 2) (flags) (catch $top 2 $end Late " ++
    "(region 3)) (label $top) load 0 switch 0 ($top $end) $end (label $end) invoke $done return) " ++
    "(record main 0 (fields int)) (func $done (frame 0 (locals) (stack)) return))"

theorem readings_agree_nested :
    ∃ tokens u, tokenize nestedSource = .ok tokens ∧ unitOf tokens = .ok u ∧ ∃ parts d,
      tokens.drop 2 = parts.flatten ∧ UnitRead d.scope {} d.unit parts d u := by
  have hsome : ((tokenize nestedSource).toOption.bind fun ts => (unitOf ts).toOption).isSome := by
    decide +kernel
  obtain ⟨u, hu⟩ := Option.isSome_iff_exists.mp hsome
  obtain ⟨tokens, htokens, hu⟩ := Option.bind_eq_some_iff.mp hu
  have hu := toOption_eq_some.mp hu
  obtain ⟨x, y, parts, d, -, -, -, hcut, -, hread⟩ := readings_agree hu
  exact ⟨tokens, u, toOption_eq_some.mp htokens, hu, parts, d, by rw [hcut]; rfl, hread⟩

end Resumable.Assembly
