import TiFs.Library.Transaction

namespace KeyValue

variable {K : Type} [DecidableEq K] {V : K → Type} {E A B : Type} {allowed : Set (Mutation V)}

/-- A body that returns has added allowed writes, and done nothing else. -/
def WritesOnly (allowed : Set (Mutation V)) (body : TxnM V E A) : Prop :=
  ∀ txn result after, body txn = .ok (result, after) →
    ∃ writes, after = txn.mutate writes ∧ ∀ write ∈ writes, write ∈ allowed

omit [DecidableEq K] in
theorem WritesOnly.weaken {more : Set (Mutation V)} {body : TxnM V E A} (only : WritesOnly allowed body)
    (implied : ∀ write ∈ allowed, write ∈ more) : WritesOnly more body := by
  intro txn result after ran
  obtain ⟨writes, same, within⟩ := only txn result after ran
  exact ⟨writes, same, fun write listed => implied write (within write listed)⟩

omit [DecidableEq K] in
theorem writesOnly_pure (result : A) : WritesOnly allowed (pure result : TxnM V E A) := by
  intro txn value after ran
  obtain ⟨_, rfl⟩ := Prod.mk.inj (Except.ok.inj ran)
  exact ⟨[], by simp [Txn.mutate], nofun⟩

omit [DecidableEq K] in
theorem writesOnly_throw (issue : E) : WritesOnly allowed (throw issue : TxnM V E A) := by
  intro txn value after ran
  cases ran

omit [DecidableEq K] in
theorem writesOnly_get : WritesOnly allowed (get : TxnM V E (Txn V)) := by
  intro txn value after ran
  obtain ⟨_, rfl⟩ := Prod.mk.inj (Except.ok.inj ran)
  exact ⟨[], by simp [Txn.mutate], nofun⟩

theorem writesOnly_readKey (key : K) : WritesOnly allowed (readKey key : TxnM V E (Option (V key))) := by
  intro txn value after ran
  obtain ⟨_, rfl⟩ := Prod.mk.inj (Except.ok.inj ran)
  exact ⟨[], by simp [Txn.mutate], nofun⟩

omit [DecidableEq K] in
theorem writesOnly_batchMutate {writes : List (Mutation V)} (within : ∀ write ∈ writes, write ∈ allowed) :
    WritesOnly allowed (batchMutate writes : TxnM V E Unit) := by
  intro txn value after ran
  obtain ⟨_, rfl⟩ := Prod.mk.inj (Except.ok.inj ran)
  exact ⟨writes, rfl, within⟩

omit [DecidableEq K] in
theorem WritesOnly.bind {body : TxnM V E A} {next : A → TxnM V E B} (only : WritesOnly allowed body)
    (nextOnly : ∀ result, WritesOnly allowed (next result)) : WritesOnly allowed (body >>= next) := by
  intro txn result after ran
  obtain ⟨middle, between, first, rest⟩ := bind_eq_ok ran
  obtain ⟨writes, rfl, within⟩ := only txn middle between first
  obtain ⟨more, rfl, moreWithin⟩ := nextOnly middle _ result after rest
  refine ⟨writes ++ more, Txn.mutate_mutate txn writes more, ?_⟩
  intro write listed
  rcases List.mem_append.mp listed with early | late
  · exact within write early
  · exact moreWithin write late

omit [DecidableEq K] in
theorem WritesOnly.map {body : TxnM V E A} (only : WritesOnly allowed body) (f : A → B) :
    WritesOnly allowed (f <$> body) := by
  rw [map_eq_pure_bind]
  exact only.bind fun result => writesOnly_pure (f result)

end KeyValue
