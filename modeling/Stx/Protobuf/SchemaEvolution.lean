import Stx.Protobuf.MessageSchema
import Mathlib.Logic.Relation

/-! Deleting fields from a schema, with the source's `removeField` at any depth, and
what a message of the old schema is worth under the new one. -/
namespace Stx.Msg
namespace MessageSchema

/-- The field with the id now refers to the schema `t`: the effect on `s` of changing
that field's schema in place. -/
def setFieldSchema (s : MessageSchema) (id : UInt32) (t : MessageSchema) : MessageSchema :=
  { s with fields := s.fields.map fun f => if f.id == id then { f with schema := some t } else f }

/-- One field is removed, in the schema itself or in the schema of one of its
OBJECT fields. -/
inductive Deletes : MessageSchema → MessageSchema → Prop
  | here {s s' : MessageSchema} (id : UInt32) (h : s.removeField id = .ok s') : Deletes s s'
  | nested {s t t' : MessageSchema} {f : SchemaField} (hf : f ∈ s.fields)
    (ht : f.schema = some t) (h : Deletes t t') : Deletes s (s.setFieldSchema f.id t')

/-- Any set of fields is removed, at any nesting levels. -/
def Evolves : MessageSchema → MessageSchema → Prop := Relation.ReflTransGen Deletes

/-- `s'` knows some of the fields of `s`, with the same types, and so on below. -/
inductive Pruned : MessageSchema → MessageSchema → Prop
  | mk {s' s : MessageSchema}
    (kept : ∀ id f', s'.field? id = some f' → ∃ f, s.field? id = some f ∧ f.type = f'.type)
    (nested : ∀ id f f' t t', s.field? id = some f → s'.field? id = some f' →
      f.type = .object → f.schema = some t → f'.schema = some t' → Pruned t' t) :
    Pruned s' s

theorem Valid.object_schema {s : MessageSchema} (hs : s.Valid) {id : UInt32} {f : SchemaField}
    (h : s.field? id = some f) (ht : f.type = .object) :
    ∃ t, f.schema = some t ∧ t.Valid := by
  cases hs with
  | mk nodup range types carries nested =>
    have hmem := (field?_mem h).1
    obtain ⟨t, hft⟩ := Option.ne_none_iff_exists'.1 (carries f hmem ht)
    exact ⟨t, hft, nested f hmem t hft⟩

theorem Pruned.refl {s : MessageSchema} (hs : s.Valid) : Pruned s s := by
  induction hs with
  | mk nodup range types carries nested ih =>
    refine .mk (fun id f h => ⟨f, h, rfl⟩) ?_
    intro id f f' t t' h h' _ ht ht'
    obtain rfl : f = f' := Option.some.inj (h.symm.trans h')
    obtain rfl : t = t' := Option.some.inj (ht.symm.trans ht')
    exact ih f (field?_mem h).1 t ht

theorem Pruned.trans {a b c : MessageSchema} (hab : Pruned a b) (hb : b.Valid)
    (hbc : Pruned b c) : Pruned a c := by
  induction hab generalizing c with
  | mk kept nested ih =>
    cases hbc with
    | mk kept' nested' =>
      refine .mk ?_ ?_
      · intro id f' h
        obtain ⟨f, hf, htf⟩ := kept id f' h
        obtain ⟨g, hg, htg⟩ := kept' id f hf
        exact ⟨g, hg, htg.trans htf⟩
      · intro id g f' u t' hg h hobj hu ht'
        obtain ⟨f, hf, htf⟩ := kept id f' h
        obtain ⟨g', hg', htg⟩ := kept' id f hf
        obtain rfl : g = g' := Option.some.inj (hg.symm.trans hg')
        have hfobj : f.type = .object := htg.symm.trans hobj
        obtain ⟨t, ht, htv⟩ := hb.object_schema hf hfobj
        exact ih id f f' t t' hf h hfobj ht ht' htv (nested' id g f u t hg hf hobj hu ht)

/- What the two ways of deleting do to the lookup by id. -/

theorem removeField_fields {s s' : MessageSchema} {id : UInt32} (h : s.removeField id = .ok s') :
    ∃ f, s.field? id = some f ∧ s'.fields = s.fields.eraseP (fun f => f.id == id) ∧
      s'.field_types = s.field_types.erase id := by
  unfold removeField at h
  cases hf : s.field? id with
  | none => rw [hf] at h; cases h
  | some f =>
    rw [hf] at h
    cases h
    exact ⟨f, rfl, rfl, by rw [(field?_mem hf).2]⟩

theorem find?_eraseP {fields : List SchemaField} (hn : (fields.map (·.id)).Nodup) (id id' : UInt32) :
    (fields.eraseP fun f => f.id == id).find? (fun f => f.id == id') =
      if id' = id then none else fields.find? fun f => f.id == id' := by
  induction fields with
  | nil => simp
  | cons g fields ih =>
    rw [List.map_cons, List.nodup_cons] at hn
    by_cases hg : g.id = id
    · rw [List.eraseP_cons_of_pos (by simpa using hg)]
      split
      · next he =>
        subst he
        rw [List.find?_eq_none]
        intro f hf hfid
        exact hn.1 (List.mem_map.2 ⟨f, hf, by simpa [hg] using hfid⟩)
      · next he =>
        rw [List.find?_cons_of_neg (by simpa [hg] using Ne.symm he)]
    · rw [List.eraseP_cons_of_neg (by simpa using hg), List.find?_cons, List.find?_cons]
      cases hb : g.id == id' with
      | true =>
        have hne : id' ≠ id := fun he => hg ((beq_iff_eq.1 hb).trans he)
        simp [hne]
      | false => exact ih hn.2

theorem removeField_field? {s s' : MessageSchema} (hs : s.Valid) {id : UInt32}
    (h : s.removeField id = .ok s') (id' : UInt32) :
    s'.field? id' = if id' = id then none else s.field? id' := by
  obtain ⟨f, -, hfields, -⟩ := removeField_fields h
  cases hs with
  | mk nodup range types carries nested =>
    unfold field?
    rw [hfields, find?_eraseP nodup]

theorem setFieldSchema_field? (s t : MessageSchema) (id id' : UInt32) :
    (s.setFieldSchema id t).field? id' =
      (s.field? id').map fun f => if f.id == id then { f with schema := some t } else f := by
  unfold field? setFieldSchema
  rw [List.find?_map]
  congr 2
  funext f
  simp only [Function.comp_apply]
  split <;> rfl

theorem removeField_valid {s s' : MessageSchema} (hs : s.Valid) {id : UInt32}
    (h : s.removeField id = .ok s') : s'.Valid := by
  have hfield := removeField_field? hs h
  obtain ⟨f, -, hfields, htypes⟩ := removeField_fields h
  cases hs with
  | mk nodup range types carries nested =>
    have hsub : ∀ g ∈ s'.fields, g ∈ s.fields := by
      rw [hfields]
      exact fun g hg => List.mem_of_mem_eraseP hg
    refine .mk ?_ (fun g hg => range g (hsub g hg)) ?_ (fun g hg => carries g (hsub g hg))
      (fun g hg => nested g (hsub g hg))
    · rw [hfields]
      exact nodup.sublist (List.eraseP_sublist.map _)
    · intro id'
      rw [hfield, htypes]
      by_cases he : id' = id
      · subst he
        simp
      · rw [AList.lookup_erase_ne he, if_neg he, types]

theorem setFieldSchema_valid {s t' : MessageSchema} (hs : s.Valid) (id : UInt32)
    (ht' : t'.Valid) : (s.setFieldSchema id t').Valid := by
  have hfield := setFieldSchema_field? s t' id
  cases hs with
  | mk nodup range types carries nested =>
    have hmem : ∀ g ∈ (s.setFieldSchema id t').fields, ∃ g₀ ∈ s.fields,
        g.id = g₀.id ∧ g.type = g₀.type ∧ (g.schema = some t' ∨ g.schema = g₀.schema) := by
      intro g hg
      obtain ⟨g₀, hg₀, rfl⟩ := List.mem_map.1 hg
      refine ⟨g₀, hg₀, ?_⟩
      split
      · exact ⟨rfl, rfl, .inl rfl⟩
      · exact ⟨rfl, rfl, .inr rfl⟩
    refine .mk ?_ ?_ ?_ ?_ ?_
    · have hids : (s.setFieldSchema id t').fields.map (·.id) = s.fields.map (·.id) := by
        simp only [setFieldSchema, List.map_map]
        refine List.map_congr_left fun g _ => ?_
        simp only [Function.comp_apply]
        split <;> rfl
      rw [hids]
      exact nodup
    · intro g hg
      obtain ⟨g₀, hg₀, hid, -, -⟩ := hmem g hg
      rw [hid]
      exact range g₀ hg₀
    · intro id'
      rw [hfield]
      change s.field_types.lookup id' = _
      rw [types, Option.map_map]
      congr 1
      funext g
      simp only [Function.comp_apply]
      split <;> rfl
    · intro g hg hobj
      obtain ⟨g₀, hg₀, -, htype, hsch | hsch⟩ := hmem g hg
      · simp [hsch]
      · rw [hsch]
        exact carries g₀ hg₀ (htype ▸ hobj)
    · intro g hg u hu
      obtain ⟨g₀, hg₀, -, -, hsch | hsch⟩ := hmem g hg
      · obtain rfl : t' = u := Option.some.inj (hsch.symm.trans hu)
        exact ht'
      · exact nested g₀ hg₀ u (hsch ▸ hu)

/-- One deletion leaves a valid schema that is pruned from the old one. -/
theorem Deletes.spec {s s' : MessageSchema} (h : Deletes s s') (hs : s.Valid) :
    s'.Valid ∧ Pruned s' s := by
  induction h with
  | here id h =>
    refine ⟨removeField_valid hs h, .mk ?_ ?_⟩
    · intro id' f' hf'
      rw [removeField_field? hs h] at hf'
      split at hf'
      · cases hf'
      · exact ⟨f', hf', rfl⟩
    · intro id' f f' t t' hf hf' hobj ht ht'
      rw [removeField_field? hs h] at hf'
      split at hf'
      · cases hf'
      · obtain rfl : f = f' := Option.some.inj (hf.symm.trans hf')
        obtain rfl : t = t' := Option.some.inj (ht.symm.trans ht')
        obtain ⟨u, hu, huv⟩ := hs.object_schema hf hobj
        obtain rfl : t = u := Option.some.inj (ht.symm.trans hu)
        exact .refl huv
  | @nested s t t' f hf ht h ih =>
    have htv : t.Valid := by
      cases hs with
      | mk nodup range types carries nested => exact nested f hf t ht
    obtain ⟨htv', hpr⟩ := ih htv
    refine ⟨setFieldSchema_valid hs f.id htv', .mk ?_ ?_⟩
    · intro id g' hg'
      rw [setFieldSchema_field?] at hg'
      obtain ⟨g, hg, rfl⟩ := Option.map_eq_some_iff.1 hg'
      refine ⟨g, hg, ?_⟩
      split <;> rfl
    · intro id g g' u u' hg hg' hobj hu hu'
      rw [setFieldSchema_field?, hg, Option.map_some] at hg'
      obtain rfl := Option.some.inj hg'
      split at hu'
      · next he =>
        -- ids are unique, so the field that was changed is the one found
        have hgf : g = f := by
          cases hs with
          | mk nodup range types carries nested =>
            exact List.inj_on_of_nodup_map nodup (field?_mem hg).1 hf (beq_iff_eq.1 he)
        subst hgf
        obtain rfl : u = t := Option.some.inj (hu.symm.trans ht)
        obtain rfl : t' = u' := Option.some.inj hu'
        exact hpr
      · obtain rfl : u = u' := Option.some.inj (hu.symm.trans hu')
        obtain ⟨v, hv, hvv⟩ := hs.object_schema hg hobj
        obtain rfl : u = v := Option.some.inj (hu.symm.trans hv)
        exact .refl hvv

/-- Any number of deletions: the run lemma of `Deletes.spec`. -/
theorem Evolves.spec {s s' : MessageSchema} (h : Evolves s s') (hs : s.Valid) :
    s'.Valid ∧ Pruned s' s := by
  induction h with
  | refl => exact ⟨hs, .refl hs⟩
  | tail _ hstep ih =>
    obtain ⟨hv, hp⟩ := ih
    obtain ⟨hv', hp'⟩ := hstep.spec hv
    exact ⟨hv', hp'.trans hv hp⟩

end MessageSchema

/- The projection of a message to a schema: a child whose field is unknown is dropped
   with its subtree, every other child stays where it is. -/
mutual
def projectChild : MessageObject → MessageSchema → Option MessageObject
  | .object id children, s =>
    (s.field? id).map fun f => .object id (projectChildren children f.schema)
  | c, s => if (s.field? c.id).isSome then some c else none

def projectChildren : List MessageObject → Option MessageSchema → List MessageObject
  | [], _ => []
  | c :: cs, s => (s.bind (projectChild c)).toList ++ projectChildren cs s
end

/-- The projection of a whole message. -/
def MessageObject.project (m : MessageObject) (s : MessageSchema) : MessageObject :=
  match m with
  | .object id children => .object id (projectChildren children (some s))
  | m => m

end Stx.Msg
