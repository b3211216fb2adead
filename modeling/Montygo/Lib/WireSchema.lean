import Montygo.Lib.WireFormat

/-!
# Messages by their schema

A schema names the fields each kind of message has and which of them hold messages.  By it a byte
string is a tree of messages: `Nests` measures how deep the tree goes, and `Inserted` says that
one tree is another one with fields added that the schema does not know, at any place in any of
its messages.
-/

namespace Montygo.WireFormat

/-- The field numbers of each kind of message, and the kind of the messages a field holds. -/
structure Schema (M : Type) where
  fields : M → List ℕ
  message : M → ℕ → Option M

variable {M : Type} (P : Protowire) (S : Schema M)

/-- `fields'` are `fields` with unknown fields added, here and in the messages below. -/
inductive InsertedFields : M → List Field → List Field → Prop
  | nil {t : M} : InsertedFields t [] []
  | unknown {t : M} {f : Field} {fields fields' : List Field} (hunknown : f.num ∉ S.fields t)
      (hrest : InsertedFields t fields fields') : InsertedFields t fields (f :: fields')
  | keep {t : M} {f : Field} {fields fields' : List Field}
      (hrest : InsertedFields t fields fields') : InsertedFields t (f :: fields) (f :: fields')
  | inside {t t' : M} {num : ℕ} {b b' : List UInt8} {inner inner' fields fields' : List Field}
      (hmessage : S.message t num = some t') (hparse : P.Parses b inner)
      (hparse' : P.Parses b' inner') (hinner : InsertedFields t' inner inner')
      (hrest : InsertedFields t fields fields') :
      InsertedFields t (⟨num, .bytes b⟩ :: fields) (⟨num, .bytes b'⟩ :: fields')

/-- `b'` is the message `b` with unknown fields added. -/
def Inserted (t : M) (b b' : List UInt8) : Prop :=
  ∃ fields fields', P.Parses b fields ∧ P.Parses b' fields' ∧ InsertedFields P S t fields fields'

/-- There is a chain of `k` messages below this one, each in a field of the one before. -/
inductive Nests : M → List UInt8 → ℕ → Prop
  | here {t : M} {b : List UInt8} : Nests t b 0
  | inside {t t' : M} {b sub : List UInt8} {fields : List Field} {num k : ℕ}
      (hparse : P.Parses b fields) (hmem : ⟨num, .bytes sub⟩ ∈ fields)
      (hmessage : S.message t num = some t') (hsub : Nests t' sub k) : Nests t b (k + 1)

/-- The message `b'` is the message `b` or one inside it. -/
inductive Inside : M → List UInt8 → M → List UInt8 → Prop
  | here {t : M} {b : List UInt8} : Inside t b t b
  | inside {t t' t'' : M} {b sub b' : List UInt8} {fields : List Field} {num : ℕ}
      (hparse : P.Parses b fields) (hmem : ⟨num, .bytes sub⟩ ∈ fields)
      (hmessage : S.message t num = some t') (hsub : Inside t' sub t'' b') : Inside t b t'' b'

variable {P S} {t : M} {fields fields' : List Field}

theorem InsertedFields.eq_nil (h : InsertedFields P S t fields []) : fields = [] := by
  cases h
  rfl

/-- The chains below a message whose fields are known. -/
theorem nests_succ_iff {b : List UInt8} {k : ℕ} (hparse : P.Parses b fields) :
    Nests P S t b (k + 1) ↔ ∃ num sub t', ⟨num, .bytes sub⟩ ∈ fields ∧ S.message t num = some t' ∧
        Nests P S t' sub k := by
  constructor
  · intro h
    cases h with
    | inside hparse' hmem hmessage hsub =>
      rw [hparse'.unique hparse] at hmem
      exact ⟨_, _, _, hmem, hmessage, hsub⟩
  · rintro ⟨num, sub, t', hmem, hmessage, hsub⟩
    exact .inside hparse hmem hmessage hsub

end Montygo.WireFormat
