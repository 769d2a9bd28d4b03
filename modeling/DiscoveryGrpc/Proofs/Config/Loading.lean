import DiscoveryGrpc.Proofs.Config.Text

/-!
# Loading configurations that are the same

Comparing two configurations and loading one do not look at locations in the same way. The
comparison takes the uses as a set, so it does not see how often one is listed; loading walks them
one by one and refuses a location that it meets again, even in a use that was there before. So of
two configurations that are the same one may be loaded and the other one not
(`not_loaded_repeatedDepth`), but only if that one repeats a use. Otherwise both are loaded, and
both as the same registry (`ofConfig_of_same`).
-/

namespace DiscoveryGrpc.Registry

open Config

/-- A configuration can be loaded if and only if no location is listed twice. -/
theorem exists_ofConfig_iff {c : Config} :
    (∃ r, ofConfig c = .ok r) ↔ (c.uses.map (·.location)).Nodup :=
  ⟨fun ⟨_, h⟩ => nodup_of_ofConfig h, fun h => ⟨_, ofConfig_eq_ok h⟩⟩

/-- The order of the uses makes no difference to the registry. -/
theorem ofConfig_of_perm {a b : Config} {r : Registry} (h : a.uses.Perm b.uses)
    (ha : ofConfig a = .ok r) : ofConfig b = .ok r := by
  have hnodup := nodup_of_ofConfig ha
  rw [ofConfig_eq_ok hnodup] at ha
  have hentries : ((a.uses.map fun u => (u.location, u.name)).map (·.1)).Nodup := by
    rwa [List.map_map]
  rw [ofConfig_eq_ok ((h.map _).nodup_iff.1 hnodup), ← ha,
    Table.ofList_eq_of_perm (h.map fun u => (u.location, u.name)) hentries]

/-- Configurations that are the same have the same uses, and each as often if none is repeated. -/
theorem perm_uses_of_same {a b : Config} (h : a.same b = true) (ha : a.uses.Nodup)
    (hb : b.uses.Nodup) : a.uses.Perm b.uses := by
  obtain ⟨-, -, -, huses⟩ := normalized_eq_iff.1 (beq_iff_eq.1 h)
  exact (List.perm_ext_iff_of_nodup ha hb).2 huses

/-- Of two configurations that are the same, if one is loaded, the other one is if and only if it
repeats no use. If both are loaded, it is as one and the same registry: it gives the same names, and
whatever is registered in it later, it exports the same. -/
theorem ofConfig_of_same {a b : Config} (h : a.same b = true) :
    (∀ r, ofConfig a = .ok r → ((∃ r', ofConfig b = .ok r') ↔ b.uses.Nodup)) ∧
    ∀ r r', ofConfig a = .ok r → ofConfig b = .ok r' → r = r' := by
  have hload {r : Registry} (ha : ofConfig a = .ok r) (hb : b.uses.Nodup) : ofConfig b = .ok r :=
    ofConfig_of_perm (perm_uses_of_same h (nodup_of_ofConfig ha).of_map hb) ha
  constructor
  · intro r ha
    exact ⟨fun ⟨_, hb⟩ => (nodup_of_ofConfig hb).of_map, fun hb => ⟨r, hload ha hb⟩⟩
  · intro r r' ha hb
    have hr := hload ha (nodup_of_ofConfig hb).of_map
    rw [hb] at hr
    exact (Except.ok.inj hr).symm

/-- Depths of two lakes, listed together. -/
def depthsTogether : Config where
  inlineSchemas := [{
    schema := "a number of meters"
    locations := [("Depth", ["Lake.depth", "Bay.depth"]), ("Level", ["Lake.level"])] }]

/-- The same depths, listed one by one. -/
def depthsApart : Config where
  inlineSchemas := [
    { schema := "a number of meters", locations := [("Level", ["Lake.level"])] },
    { schema := "a number of feet", locations := [("Depth", [])] },
    { schema := "a number of meters", locations := [("Depth", ["Bay.depth"])] },
    { schema := "a number of meters", locations := [("Depth", ["Lake.depth"])] }]

theorem ofConfig_depthsApart : depthsTogether.same depthsApart = true ∧
    ∃ r, ofConfig depthsTogether = .ok r ∧ ofConfig depthsApart = .ok r := by
  have hsame : depthsTogether.same depthsApart = true := by decide +kernel
  obtain ⟨r, hr⟩ : ∃ r, ofConfig depthsTogether = .ok r := exists_ofConfig_iff.2 (by decide)
  obtain ⟨r', hr'⟩ := ((ofConfig_of_same hsame).1 r hr).2 (by decide)
  obtain rfl := (ofConfig_of_same hsame).2 r r' hr hr'
  exact ⟨hsame, r, hr, hr'⟩

/-- A configuration with one location, which it lists twice under the same name. -/
def repeatedDepth : Config where
  inlineSchemas :=
    [{ schema := "a number of meters", locations := [("Depth", ["Lake.depth", "Lake.depth"])] }]

/-- The comparison does not see that a use is repeated, loading does. -/
theorem not_loaded_repeatedDepth : repeatedDepth.same depthConfig = true ∧
    (∃ r, ofConfig depthConfig = .ok r) ∧ ¬∃ r, ofConfig repeatedDepth = .ok r := by
  refine ⟨by decide +kernel, exists_ofConfig_iff.2 (by decide), fun h => ?_⟩
  exact absurd (exists_ofConfig_iff.1 h) (by decide)

end DiscoveryGrpc.Registry
