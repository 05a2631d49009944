import ProotDistro.BuildEngine.Effects
import ProotDistro.OciWriter

/-!
# The history of an image and its layers

An image says three times what layers it has: in its manifest, in the `diff_ids` of its config,
and in the history, where every entry not marked `empty_layer` stands for one. A `Ledger` of a
stage pairs the layers with the entries: each pair is one of the base image's, or one that a
step of the run has added to both.

* **`Step.ledgers`** — a step adds to both or to neither.
* **`history_aligned`** — the documents of every image built over aligned base images have the
  same layers, in the same order.
-/

namespace ProotDistro

open Posix Dirfd TarExtract LayerDiff Dockerfile OciWriter

namespace BuildEngine

/-- The history entries of a stage that stand for a layer. -/
def stageEntries (c : ImageConfig) : List Json := (c.history.getD []).filter hasLayer

/-- An entry says of itself whether it stands for a layer. -/
theorem hasLayer_historyEntry (instr : Instr) (added : Bool) :
    hasLayer (Engine.historyEntry instr added) = added := by
  cases added <;> rfl

/-- An instruction adds one entry with a layer when it added one. -/
theorem stageEntries_recordHistory (instr : Instr) (added : Bool) (s : Stage) :
    stageEntries (Engine.recordHistory instr added s).imageConfig =
      stageEntries s.imageConfig ++ if added then [Engine.historyEntry instr added] else [] := by
  change ((s.imageConfig.history.getD [] ++ [Engine.historyEntry instr added])).filter hasLayer = _
  rw [List.filter_append, List.filter_singleton, hasLayer_historyEntry]
  cases added <;> rfl

/-- An instruction adds at most one layer, at the end, and leaves the history to the engine. -/
theorem StageEffect.layers {instr : Instr} {s s' : Stage} (h : StageEffect instr s s') :
    ∃ added : Option Layer, s'.layers = s.layers ++ added.toList ∧
      s'.imageConfig.history = s.imageConfig.history := by
  cases h with
  | none => exact ⟨Option.none, (List.append_nil _).symm, rfl⟩
  | args => exact ⟨Option.none, (List.append_nil _).symm, rfl⟩
  | env => exact ⟨Option.none, (List.append_nil _).symm, rfl⟩
  | user => exact ⟨Option.none, (List.append_nil _).symm, rfl⟩
  | shell => exact ⟨Option.none, (List.append_nil _).symm, rfl⟩
  | unread => exact ⟨Option.none, (List.append_nil _).symm, rfl⟩
  | layer layer => exact ⟨some layer, rfl, rfl⟩
  | workdir path layer hpath =>
    cases layer with
    | none => exact ⟨Option.none, (List.append_nil _).symm, rfl⟩
    | some layer => exact ⟨some layer, rfl, rfl⟩

namespace Engine

/-- A layer and the history entry that stands for it. -/
abbrev Ledger := List (Layer × Json)

/-- The document a pulled image's config is taken from. -/
def pulledDoc (pulled : Pulled) : Json :=
  if pulled.imageConfig.truthy then pulled.imageConfig else .obj [("config".toList, .obj [])]

/-- `base` was pulled and its config adopted. -/
def PulledAs (b : Build) (pulled : Pulled) (config : ImageConfig) : Prop :=
  ∃ base root fs fs', b.pullImage base root fs = .ok (pulled, fs') ∧
    adoptImageConfig (pulledDoc pulled) = .ok config

/-- The base images say of their layers three times the same. -/
def BasesAligned (b : Build) : Prop :=
  ∀ pulled config, PulledAs b pulled config →
    pulled.layers.length = (config.diffIds.getD []).length ∧
      pulled.layers.length = (stageEntries config).length

/-- A pair at the same place of a base image's layers and of its history. -/
def OfBase (b : Build) (x : Layer × Json) : Prop :=
  ∃ (pulled : Pulled) (config : ImageConfig) (i : Nat), PulledAs b pulled config ∧
    (pulledLayers pulled.layers (config.diffIds.getD []))[i]? = some x.1 ∧
    (stageEntries config)[i]? = some x.2

/-- A step of the run added the layer to its stage and the entry to the history. -/
def Made (b : Build) (e₀ : Engine) (x : Layer × Json) : Prop :=
  ∃ e₁ raw e₂ s₁ s₂, Reaches b (fun _ => True) e₀ e₁ ∧ Step b e₁ (some raw) e₂ ∧
    e₁.current = some s₁ ∧ e₂.current = some s₂ ∧ s₂.layers = s₁.layers ++ [x.1] ∧
    s₂.imageConfig.history = some (s₁.imageConfig.history.getD [] ++ [x.2])

/-- The ledger of a stage. -/
structure HasLedger (b : Build) (e₀ : Engine) (s : Stage) (ledger : Ledger) : Prop where
  layers : s.layers = ledger.map (·.1)
  entries : stageEntries s.imageConfig = ledger.map (·.2)
  origin : ∀ x ∈ ledger, OfBase b x ∨ Made b e₀ x

section Steps

variable {b : Build} {e₀ e e' : Engine} {s s' : Stage} {instr : Instr} {w' : World}
  {label : Option Instr}

/-- A base image's ledger: its layers and its entries, one by one. -/
theorem HasLedger.of_pulled {pulled : Pulled} {config : ImageConfig} (hb : BasesAligned b)
    (hpulled : PulledAs b pulled config) (hconfig : s.imageConfig = config)
    (hlayers : s.layers = pulledLayers pulled.layers (config.diffIds.getD [])) :
    ∃ ledger, HasLedger b e₀ s ledger := by
  have hlength : (pulledLayers pulled.layers (config.diffIds.getD [])).length =
      (stageEntries config).length := by
    unfold pulledLayers
    rw [List.length_map, List.length_zipIdx]
    exact (hb pulled config hpulled).2
  refine ⟨(pulledLayers pulled.layers (config.diffIds.getD [])).zip (stageEntries config),
    ?_, ?_, fun x hx => .inl ?_⟩
  · rw [hlayers, List.map_fst_zip hlength.le]
  · rw [hconfig, List.map_snd_zip hlength.ge]
  · obtain ⟨i, hi⟩ := List.mem_iff_getElem?.mp hx
    obtain ⟨hlayer, hentry⟩ := List.getElem?_zip_eq_some.mp hi
    exact ⟨pulled, config, i, hpulled, hlayer, hentry⟩

/-- A stage that has just begun has the ledger of its base. -/
theorem Started.ledger (hb : BasesAligned b) (h : Started b e s)
    (hstages : ∀ s ∈ e.stages, ∃ ledger, HasLedger b e₀ s ledger) :
    ∃ ledger, HasLedger b e₀ s ledger := by
  obtain ⟨name, base, w, w', s₀, hstart, rfl⟩ := h
  unfold startStage at hstart
  split at hstart
  · cases hstart
    exact ⟨[], rfl, rfl, fun x hx => by cases hx⟩
  · split at hstart
    · rename_i parent hparent
      obtain ⟨w₁, -, hstart⟩ := Result.bind_ok hstart
      cases hstart
      obtain ⟨k, -, hk⟩ := Option.bind_eq_some_iff.mp hparent
      obtain ⟨ledger, hledger⟩ := hstages parent (List.mem_of_getElem? hk)
      exact ⟨ledger, hledger.layers, hledger.entries, hledger.origin⟩
    · obtain ⟨⟨pulled, fs⟩, hpull, hstart⟩ := Result.bind_ok hstart
      obtain ⟨config, hadopt, hstart⟩ := Result.bind_ok hstart
      cases hstart
      exact HasLedger.of_pulled hb ⟨_, _, _, _, hpull, hadopt⟩ rfl rfl

/-- **A step adds to both or to neither.** -/
theorem Step.ledgers (hb : BasesAligned b) (hreach : Reaches b (fun _ => True) e₀ e)
    (h : Step b e label e') (hstages : ∀ s ∈ e.stages, ∃ ledger, HasLedger b e₀ s ledger) :
    ∀ s ∈ e'.stages, ∃ ledger, HasLedger b e₀ s ledger := by
  have heffect := h.stages
  have hcurrent : e'.current = e'.stages.getLast? := rfl
  generalize hafter : e'.stages = after at heffect
  cases heffect with
  | same => exact hstages
  | begun s hs =>
    intro t ht
    rcases List.mem_append.mp ht with hold | hnew
    · exact hstages t hold
    · rw [List.mem_singleton.mp hnew]
      exact hs.ledger hb hstages
  | changed init s s' raw instr w' hs hlabel hname hexec heff =>
    intro t ht
    rcases List.mem_append.mp ht with hold | hnew
    · exact hstages t (hs ▸ List.mem_append_left _ hold)
    · rw [List.mem_singleton.mp hnew]
      obtain ⟨ledger, hledger⟩ :=
        hstages s (hs ▸ List.mem_append_right _ (List.mem_singleton.mpr rfl))
      obtain ⟨added, hlayers, hhistory⟩ := heff.stage.layers
      have hbefore : e.current = some s := by
        unfold current
        rw [hs, List.getLast?_concat]
      rw [hafter, List.getLast?_concat] at hcurrent
      cases added with
      | none =>
        -- nothing was added: the entry is marked empty
        have hflag : decide (s.layers.length < s'.layers.length) = false := by
          rw [hlayers]
          simp
        rw [hflag]
        refine ⟨ledger, ?_, ?_, hledger.origin⟩
        · exact hlayers.trans ((List.append_nil _).trans hledger.layers)
        · rw [stageEntries_recordHistory]
          unfold stageEntries
          rw [hhistory]
          exact (List.append_nil _).trans hledger.entries
      | some layer =>
        have hflag : decide (s.layers.length < s'.layers.length) = true := by
          rw [hlayers]
          simp
        rw [hflag] at hcurrent ⊢
        subst hlabel
        refine ⟨ledger ++ [(layer, historyEntry instr true)], ?_, ?_, fun x hx => ?_⟩
        · rw [List.map_append, ← hledger.layers]
          exact hlayers
        · rw [stageEntries_recordHistory, List.map_append, ← hledger.entries]
          unfold stageEntries
          rw [hhistory]
          rfl
        · rcases List.mem_append.mp hx with hold | hlast
          · exact hledger.origin x hold
          · rw [List.mem_singleton.mp hlast]
            refine .inr ⟨e, raw, e', s, _, hreach, h, hbefore, hcurrent, hlayers, ?_⟩
            change some (s'.imageConfig.history.getD [] ++ _) = _
            rw [hhistory]

/-- Every stage of every run has a ledger. -/
theorem ledgers_of_reaches {globalArgs : Dict Str Str} {w : World} (hb : BasesAligned b)
    (h : Reaches b (fun _ => True) (start globalArgs w) e) :
    ∀ s ∈ e.stages, ∃ ledger, HasLedger b (start globalArgs w) s ledger := by
  have hboth := h.invariant (I := fun e => Reaches b (fun _ => True) (start globalArgs w) e ∧
    ∀ s ∈ e.stages, ∃ ledger, HasLedger b (start globalArgs w) s ledger)
    ⟨.refl, fun s hs => by cases hs⟩ (fun e label e' hstep hok he =>
      ⟨he.1.trans (Reaches.step hstep hok), hstep.ledgers hb he.1 he.2⟩)
  exact hboth.2

end Steps

/-- The target is one of the stages. -/
theorem mem_of_target {b : Build} {e : Engine} {s : Stage} (h : target b e = .ok s) :
    s ∈ e.stages := by
  unfold target at h
  split at h
  · cases h
  · rename_i hcur
    split at h
    · cases h
      exact List.mem_of_getLast? hcur
    · split at h
      · cases h
      · rename_i hstage
        cases h
        obtain ⟨k, -, hk⟩ := Option.bind_eq_some_iff.mp hstage
        exact List.mem_of_getElem? hk

/-- The manifest and the config of the image a build ends in. -/
def imageOf (sha256 : Bytes → Str) (archName : Str) (stage : Stage) :
    Dict Str Json × Dict Str Json :=
  buildManifestAndConfig sha256 (imageConfigFields stage.imageConfig) stage.layers archName

/-- **The history of an image stays aligned.** Over aligned base images every build, whatever
its Dockerfile and its build cache, ends in a manifest and a config that say of the same layers:
as many descriptors as `diff_ids` and as history entries not marked empty. They are the layers of the
stage, and at each place stand the layer and the entry that came together, from the base image or from
one step. -/
theorem history_aligned (b : Build) (sha256 : Bytes → Str) (archName : Str) (hb : BasesAligned b)
    (instrs : List Instr) (w : World) (stage : Stage) (e : Engine)
    (h : run b instrs w = .ok (stage, e)) :
    let image := imageOf sha256 archName stage
    (manifestLayers image.1).length = (diffIds image.2).length ∧
    (manifestLayers image.1).length = (layerEntries image.2).length ∧
    ∃ globalArgs, ∃ ledger : Ledger,
      stage.layers = ledger.map (·.1) ∧
      manifestLayers image.1 =
        ledger.map (fun x => descriptor ociLayerMedia x.1.digest x.1.size) ∧
      diffIds image.2 = ledger.map (fun x => .str x.1.diffId) ∧
      layerEntries image.2 = ledger.map (·.2) ∧
      ∀ x ∈ ledger, OfBase b x ∨ Made b (start globalArgs w) x := by
  have hadmits : Admits b (fun _ => True) instrs := ⟨fun _ _ => trivial, fun _ _ _ _ _ => trivial⟩
  obtain ⟨globalArgs, hreach, htarget⟩ := run_reaches hadmits h
  obtain ⟨ledger, hledger⟩ := ledgers_of_reaches hb hreach stage (mem_of_target htarget)
  have hlayers : manifestLayers (imageOf sha256 archName stage).1 =
      ledger.map (fun x => descriptor ociLayerMedia x.1.digest x.1.size) := by
    unfold imageOf
    rw [manifestLayers_build, hledger.layers, List.map_map]
    rfl
  have hdiffIds : diffIds (imageOf sha256 archName stage).2 =
      ledger.map (fun x => .str x.1.diffId) := by
    unfold imageOf
    rw [diffIds_build, hledger.layers, List.map_map]
    rfl
  have hentries : layerEntries (imageOf sha256 archName stage).2 = ledger.map (·.2) := by
    unfold imageOf
    rw [layerEntries_build, layerEntries_imageConfigFields]
    exact hledger.entries
  refine ⟨?_, ?_, globalArgs, ledger, hledger.layers, hlayers, hdiffIds, hentries, hledger.origin⟩
  · rw [hlayers, hdiffIds, List.length_map, List.length_map]
  · rw [hlayers, hentries, List.length_map, List.length_map]

/-! ### An image of three layers -/

/-- An image of one layer, made by the second of two instructions. -/
def smallImage : Pulled where
  imageConfig := .obj [("config".toList, .obj []),
    ("rootfs".toList, .obj [("diff_ids".toList, .arr [.str "sha256:d".toList])]),
    ("history".toList, .arr [.obj [("empty_layer".toList, .bool true)],
      .obj [(createdKey, epoch)]])]
  layers := [("sha256:b".toList, .int 10)]
  configDigest := "sha256:c".toList

def overSmallImage : Build := { onPaper with pullImage := fun _ _ fs => .ok (smallImage, fs) }

/-- The base of the fixed build is aligned. -/
theorem overSmallImage_aligned : BasesAligned overSmallImage := by
  intro pulled config hpulled
  obtain ⟨base, root, fs, fs', hpull, hadopt⟩ := hpulled
  cases hpull
  cases hadopt
  exact ⟨by decide, by decide⟩

def withSmallImage : World := { emptyWorld with blobs := [("sha256:b".toList, [])] }

def threeLayers : List Instr :=
  [textInstr .FROM "small AS a", textInstr .ENV "X=1", execInstr .RUN ["true"],
    textInstr .FROM "a", textInstr .USER "nobody", textInstr .WORKDIR "/srv"]

theorem history_aligned_threeLayers :
    ∃ stage e, run overSmallImage threeLayers withSmallImage = .ok (stage, e) ∧
      stage.layers.length = 3 ∧
      (manifestLayers (imageOf (fun _ => []) [] stage).1).length =
        (layerEntries (imageOf (fun _ => []) [] stage).2).length := by
  have hcheck : (run overSmallImage threeLayers withSmallImage).toOption.any
      (fun x => x.1.layers.length = 3) = true := by
    decide +kernel
  rcases hrun : run overSmallImage threeLayers withSmallImage with _ | x
  · rw [hrun] at hcheck
    cases hcheck
  · rw [hrun] at hcheck
    obtain ⟨stage, e⟩ := x
    have haligned := history_aligned overSmallImage (fun _ => []) [] overSmallImage_aligned
      threeLayers withSmallImage stage e hrun
    have hthree : stage.layers.length = 3 := of_decide_eq_true hcheck
    exact ⟨stage, e, rfl, hthree, haligned.2.1⟩

end Engine

end BuildEngine

end ProotDistro
