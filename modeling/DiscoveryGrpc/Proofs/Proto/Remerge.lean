import DiscoveryGrpc.Proofs.Proto.Merged

/-!
# Merging once more

Merging the same old file again changes nothing. Merging the result into the new file gives the
result, and merging a file into itself gives that file, if the signatures of its rpcs stand
together (`File.SignaturesTogether`).

Each of the three is shown for the fields of one name (`mergedField?_again`, `mergedField?_onto`,
`mergedField?_self`), for messages by induction on their enums (`merged_again`, `merged_onto`,
`merged_self`), for services, and then for files: `File.merge_fixpoint`.
-/

namespace DiscoveryGrpc.Proto

namespace Merge

/-! ## Fields -/

section Fields

variable {known : NameSet} {owner : Message}

theorem mergedField?_self (new : Option Field) : mergedField? known owner new new = new := by
  cases new with
  | none => rfl
  | some g => exact mergedField?_untouched fun h => Field.not_supersedes rfl rfl h.1

/-- A field that came back stays when it is brought back again. -/
theorem mergedField?_again (new old : Option Field) :
    mergedField? known owner (mergedField? known owner new old) old
      = mergedField? known owner new old := by
  cases old with
  | none => rfl
  | some f =>
    cases new with
    | none =>
      by_cases ha : f.Available known owner
      · rw [mergedField?_restored ha]
        exact mergedField?_untouched fun h => Field.not_supersedes rfl rfl h.1
      · rw [mergedField?_gone ha, mergedField?_gone ha]
    | some g =>
      by_cases h : f.Supersedes g ∧ f.Available known owner
      · rw [mergedField?_superseded h.1 h.2]
        exact mergedField?_untouched fun h => Field.not_supersedes rfl rfl h.1
      · rw [mergedField?_untouched h, mergedField?_untouched h]

/-- What came back comes back in the same shape. -/
theorem mergedField?_onto (new old : Option Field) :
    mergedField? known owner new (mergedField? known owner new old)
      = mergedField? known owner new old := by
  cases old with
  | none => exact mergedField?_self new
  | some f =>
    cases new with
    | none =>
      by_cases ha : f.Available known owner
      · rw [mergedField?_restored ha, mergedField?_restored ha.unreferenced,
          Field.unreferenced_unreferenced]
      · rw [mergedField?_gone ha]
        rfl
    | some g =>
      by_cases h : f.Supersedes g ∧ f.Available known owner
      · let back : Field := { f.unreferenced with description := g.description }
        have hs : back.Supersedes g := h.1
        have ha : back.Available known owner := Field.Available.unreferenced h.2
        rw [mergedField?_superseded h.1 h.2, mergedField?_superseded hs ha]
        exact congrArg (fun f : Field => some { f with description := g.description })
          (Field.unreferenced_unreferenced f)
      · rw [mergedField?_untouched h]
        exact mergedField?_self (some g)

end Fields

/-! ## Messages -/

section Messages

variable {known : NameSet} {new old : Message}

theorem merged_self (hn : new.WellFormed) : merged known new new = new := by
  induction hn with
  | @intro new hfields hnamed henums ih =>
    have hn : new.WellFormed := .intro hfields hnamed henums
    refine Message.eq_of_parts (merged_rest hnamed.sorted new) new.eta.symm ?_ ?_
    · refine (distinct_merged hn new).ext hfields fun name => ?_
      rw [field?_merged hn hn, mergedField?_self]
    · exact (overlaid_enums _ hnamed.sorted hnamed).unique (.self ih) hnamed.sorted

theorem merged_again (hn : new.WellFormed) (ho : old.WellFormed) :
    merged known (merged known new old) old = merged known new old := by
  induction ho generalizing new with
  | @intro old hfields hnamed henums ih =>
    have ho : old.WellFormed := .intro hfields hnamed henums
    have hm : (merged known new old).WellFormed := wellFormed_merged hn ho
    have hover := overlaid_enums known hn.named.sorted hnamed
    refine Message.eq_of_parts (merged_rest hm.named.sorted old) (Message.eta _).symm ?_ ?_
    · refine (distinct_merged hm old).ext hm.fields fun name => ?_
      rw [field?_merged hm ho, mergedField?_congr (hasEnum_merged _ hn.named.sorted hnamed),
        field?_merged hn ho, mergedField?_again]
    · refine (overlaid_enums _ hm.named.sorted hnamed).unique (hover.again ?_) hm.named.sorted
      rintro x hx y hy _ rfl
      exact ih y hy (hn.enums x hx)

theorem merged_onto (hn : new.WellFormed) (ho : old.WellFormed) :
    merged known new (merged known new old) = merged known new old := by
  induction ho generalizing new with
  | @intro old hfields hnamed henums ih =>
    have ho : old.WellFormed := .intro hfields hnamed henums
    have hm : (merged known new old).WellFormed := wellFormed_merged hn ho
    have hover := overlaid_enums known hn.named.sorted hnamed
    refine Message.eq_of_parts (merged_rest hn.named.sorted _) (merged_rest hn.named.sorted old)
      ?_ ?_
    · refine (distinct_merged hn _).ext hm.fields fun name => ?_
      rw [field?_merged hn hm, field?_merged hn ho, mergedField?_onto]
    · refine (overlaid_enums _ hn.named.sorted hm.named).unique (hover.onto ?_ ?_)
        hn.named.sorted
      · exact fun x hx => merged_self (hn.enums x hx)
      · rintro x hx y hy _ rfl
        exact ih y hy (hn.enums x hx)

end Messages

/-! ## Services -/

section Services

variable {new old : Service}

theorem named_mergedService (hn : new.rpcs.Named Rpc.name) (ho : old.rpcs.Named Rpc.name) :
    (mergedService new old).rpcs.Named Rpc.name := by
  refine (overlaid_rpcs ho new).named hn ?_
  rintro r - r' _ rfl
  rfl

theorem mergedService_self (hn : new.rpcs.Named Rpc.name)
    (htogether : ∀ r ∈ new.rpcs.values, Together r.settings) : mergedService new new = new := by
  have hrpcs : (mergedService new new).rpcs = new.rpcs := by
    refine (overlaid_rpcs hn new).unique (.self fun r hr => ?_) hn.sorted
    rw [mergeSignatures_self (htogether r hr)]
  exact congrArg (fun rpcs => { new with rpcs }) hrpcs

theorem mergedService_again (hn : new.rpcs.Named Rpc.name) (ho : old.rpcs.Named Rpc.name) :
    mergedService (mergedService new old) old = mergedService new old := by
  have hrpcs : (mergedService (mergedService new old) old).rpcs = (mergedService new old).rpcs := by
    refine (overlaid_rpcs ho (mergedService new old)).unique ((overlaid_rpcs ho new).again ?_)
      (named_mergedService hn ho).sorted
    rintro r - r' - _ rfl
    exact congrArg (fun settings => { r with settings })
      (mergeSignatures_again r'.settings r.settings)
  exact congrArg (fun rpcs => { new with rpcs }) hrpcs

theorem mergedService_onto (hn : new.rpcs.Named Rpc.name) (ho : old.rpcs.Named Rpc.name)
    (htogether : ∀ r ∈ new.rpcs.values, Together r.settings) :
    mergedService new (mergedService new old) = mergedService new old := by
  have hrpcs : (mergedService new (mergedService new old)).rpcs = (mergedService new old).rpcs := by
    refine (overlaid_rpcs (named_mergedService hn ho) new).unique
      ((overlaid_rpcs ho new).onto ?_ ?_) hn.sorted
    · intro r hr
      rw [mergeSignatures_self (htogether r hr)]
    · rintro r hr r' - _ rfl
      exact congrArg (fun settings => { r with settings })
        (mergeSignatures_onto r'.settings (htogether r hr))
  exact congrArg (fun rpcs => { new with rpcs }) hrpcs

end Services

end Merge

/-! ## Files -/

/-- In no rpc does an option of another name stand between two signatures. -/
def File.SignaturesTogether (f : File) : Prop :=
  ∀ s ∈ f.services.values, ∀ r ∈ s.rpcs.values, Merge.Together r.settings

instance (f : File) : Decidable f.SignaturesTogether :=
  inferInstanceAs (Decidable (∀ s ∈ f.services.values, ∀ r ∈ s.rpcs.values, _))

namespace Merge

variable {new old : File}

theorem merge_self (hn : new.WellFormed) (htogether : new.SignaturesTogether) :
    (new.merge new).1 = new := by
  have hmessages : (new.merge new).1.messages = new.messages := by
    exact (overlaid_messages hn.messages.sorted hn.messages).unique
      (.self fun m hm => merged_self (hn.wellFormed m hm)) hn.messages.sorted
  have hservices : (new.merge new).1.services = new.services := by
    exact (overlaid_services new hn.services).unique
      (.self fun s hs => mergedService_self (hn.rpcs s hs) (htogether s hs)) hn.services.sorted
  exact congrArg₂ (fun messages services => { new with messages, services }) hmessages hservices

theorem merge_again (hn : new.WellFormed) (ho : old.WellFormed) :
    ((new.merge old).1.merge old).1 = (new.merge old).1 := by
  have hm := wellFormed_merge hn ho
  have hover := overlaid_messages hn.messages.sorted ho.messages
  have hmessages : ((new.merge old).1.merge old).1.messages = (new.merge old).1.messages := by
    have hagain := overlaid_messages hm.messages.sorted ho.messages
    rw [hover.names] at hagain
    refine hagain.unique (hover.again ?_) hm.messages.sorted
    rintro x hx y hy _ rfl
    exact merged_again (hn.wellFormed x hx) (ho.wellFormed y hy)
  have hservices : ((new.merge old).1.merge old).1.services = (new.merge old).1.services := by
    refine (overlaid_services _ ho.services).unique ((overlaid_services new ho.services).again ?_)
      hm.services.sorted
    rintro x hx y hy _ rfl
    exact mergedService_again (hn.rpcs x hx) (ho.rpcs y hy)
  exact congrArg₂ (fun messages services => { new with messages, services }) hmessages hservices

theorem merge_onto (hn : new.WellFormed) (ho : old.WellFormed)
    (htogether : new.SignaturesTogether) :
    (new.merge (new.merge old).1).1 = (new.merge old).1 := by
  have hm := wellFormed_merge hn ho
  have hmessages : (new.merge (new.merge old).1).1.messages = (new.merge old).1.messages := by
    refine (overlaid_messages hn.messages.sorted hm.messages).unique
      ((overlaid_messages hn.messages.sorted ho.messages).onto ?_ ?_) hn.messages.sorted
    · exact fun x hx => merged_self (hn.wellFormed x hx)
    · rintro x hx y hy _ rfl
      exact merged_onto (hn.wellFormed x hx) (ho.wellFormed y hy)
  have hservices : (new.merge (new.merge old).1).1.services = (new.merge old).1.services := by
    refine (overlaid_services new hm.services).unique
      ((overlaid_services new ho.services).onto ?_ ?_) hn.services.sorted
    · exact fun x hx => mergedService_self (hn.rpcs x hx) (htogether x hx)
    · rintro x hx y hy _ rfl
      exact mergedService_onto (hn.rpcs x hx) (ho.rpcs y hy) (htogether x hx)
  exact congrArg₂ (fun messages services => { new with messages, services }) hmessages hservices

end Merge

/-- Merging is idempotent, and its result is a fixed point of merging into the new file if there
the signatures stand together. -/
theorem File.merge_fixpoint {new old : File} (hn : new.WellFormed) (ho : old.WellFormed) :
    ((new.merge old).1.merge old).1 = (new.merge old).1 ∧
      (new.SignaturesTogether →
        (new.merge (new.merge old).1).1 = (new.merge old).1 ∧ (new.merge new).1 = new) :=
  ⟨Merge.merge_again hn ho, fun h => ⟨Merge.merge_onto hn ho h, Merge.merge_self hn h⟩⟩

theorem File.merge_fixpoint_lakes :
    newLakes.WellFormed ∧ oldLakes.WellFormed ∧ newLakes.SignaturesTogether ∧
      ((newLakes.merge oldLakes).1.merge oldLakes).1 = (newLakes.merge oldLakes).1 ∧
      (newLakes.merge (newLakes.merge oldLakes).1).1 = (newLakes.merge oldLakes).1 ∧
      (newLakes.merge newLakes).1 = newLakes :=
  have hn : newLakes.WellFormed := by decide +kernel
  have ho : oldLakes.WellFormed := by decide +kernel
  have htogether : newLakes.SignaturesTogether := by decide +kernel
  have hfix := merge_fixpoint hn ho
  ⟨hn, ho, htogether, hfix.1, hfix.2 htogether⟩

end DiscoveryGrpc.Proto
