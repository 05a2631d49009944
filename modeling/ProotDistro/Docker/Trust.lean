import ProotDistro.Docker.Pull

/-!
# The chain of trust of a pinned pull

Nothing a registry or a cache says is taken at its word. From the pin down every document and every
layer is held to the digest that names it, whichever way it came, and what a pull records is what a
later hit goes by.

* **`resolvePinned_keeps`** — a manifest that is resolved stands in a `Chain` from the pin.
* **`chain_unique`** — two chains from one pin over agreeing documents end in one manifest.
* **`pinned_pull_trusted`** — what a pinned pull returns and applies, and what a hit returns later.
-/

namespace ProotDistro

open Posix Download

namespace Docker

/-! ## Chains -/

/-- A manifest that is reached from the pin through documents that hash to what names them, and the
documents on the way; `Body` says where a document came from. -/
inductive Chain (env : PullEnv) (Body : Str → Bytes → Prop) (pin arch : Str) :
    Dict Str Json → Dict Str Bytes → Prop where
  | direct {body : Bytes} {manifest : Dict Str Json} :
      Body pin body → HashesTo env.sha256 body pin → parseManifest env body [] = .ok manifest →
      isIndex manifest = false → Chain env Body pin arch manifest (Dict.set [] pin body)
  | child {body body' : Bytes} {index manifest : Dict Str Json} {digest : Str} :
      Body pin body → HashesTo env.sha256 body pin → parseManifest env body [] = .ok index →
      isIndex index = true → childDigest index arch = .ok digest → Body digest body' →
      HashesTo env.sha256 body' digest → parseManifest env body' [] = .ok manifest →
      Chain env Body pin arch manifest (Dict.set (Dict.set [] pin body) digest body')

/-- The config of a manifest: none where it names none, else of bytes that hash to its digest. -/
def ConfigOf (env : PullEnv) (Body : Str → Bytes → Prop) (manifest config : Dict Str Json) : Prop :=
  configDigest manifest = [] ∧ config = [] ∨
    ∃ body, Body (configDigest manifest) body ∧ HashesTo env.sha256 body (configDigest manifest) ∧
      parseConfig env body = .ok config

/-- An entry of the index names the digest. -/
def IndexNames (index : Dict Str Json) (digest : Str) : Prop :=
  ∃ entries entry, Dict.get index manifestsKey = some (.arr entries) ∧ entry ∈ entries ∧
    usableDigest entry = some digest

section Chains

variable {env : PullEnv} {Body Body' : Str → Bytes → Prop} {pin arch : Str}
  {manifest manifest' config config' index : Dict Str Json} {documents documents' : Dict Str Bytes}

/-- The entry picked is one of the index. -/
theorem pickPlatform_mem {entries : List Json} {variant : Str} {entry : Json}
    (h : pickPlatform entries arch variant = some entry) : entry ∈ entries := by
  unfold pickPlatform at h
  rcases Option.or_eq_some_iff.mp h with hfirst | ⟨-, hsecond⟩
  · exact List.mem_of_find?_eq_some hfirst
  · exact List.mem_of_find?_eq_some hsecond

/-- The digest of a child is named by the index. -/
theorem childDigest_named {digest : Str} (h : childDigest index arch = .ok digest) :
    IndexNames index digest := by
  unfold childDigest at h
  simp only at h
  split at h
  · cases h
  · rename_i entries hentries
    split at h
    · cases h
    · rename_i entry hpick
      split at h
      · cases h
      · rename_i digest' hdigest
        split at h
        · cases h
          have hmem := pickPlatform_mem hpick
          cases hget : Dict.get index manifestsKey with
          | none =>
            rw [hget] at hentries
            cases hentries
            cases hmem
          | some v =>
            rw [hget, Option.getD_some] at hentries
            cases v <;> cases hentries
            exact ⟨entries, entry, hget, hmem, hdigest⟩
        · cases h

/-- **Chains from one pin** over documents that agree end in one manifest. -/
theorem chain_unique
    (hagree : ∀ d b b', Body d b → Body' d b' → HashesTo env.sha256 b d →
      HashesTo env.sha256 b' d → b = b')
    (h : Chain env Body pin arch manifest documents)
    (h' : Chain env Body' pin arch manifest' documents') : manifest = manifest' := by
  cases h with
  | direct hbody hash hparse hindex =>
    cases h' with
    | direct hbody' hash' hparse' hindex' =>
      rw [hagree _ _ _ hbody hbody' hash hash', hparse'] at hparse
      exact (Except.ok.inj hparse).symm
    | child hbody' hash' hparse' hindex' =>
      rw [hagree _ _ _ hbody hbody' hash hash', hparse'] at hparse
      cases hparse
      rw [hindex] at hindex'
      cases hindex'
  | child hbody hash hparse hindex hchild hnext hnextHash hnextParse =>
    cases h' with
    | direct hbody' hash' hparse' hindex' =>
      rw [hagree _ _ _ hbody hbody' hash hash', hparse'] at hparse
      cases hparse
      rw [hindex] at hindex'
      cases hindex'
    | child hbody' hash' hparse' hindex' hchild' hnext' hnextHash' hnextParse' =>
      rw [hagree _ _ _ hbody hbody' hash hash', hparse'] at hparse
      cases hparse
      rw [hchild'] at hchild
      cases hchild
      rw [hagree _ _ _ hnext hnext' hnextHash hnextHash', hnextParse'] at hnextParse
      exact (Except.ok.inj hnextParse).symm

/-- Two readings of a manifest's configuration agree where the digests determine the bytes. -/
theorem configOf_unique
    (hagree : ∀ d b b', Body d b → Body' d b' → HashesTo env.sha256 b d →
      HashesTo env.sha256 b' d → b = b')
    (h : ConfigOf env Body manifest config) (h' : ConfigOf env Body' manifest config') :
    config = config' := by
  have hnone : ∀ b, HashesTo env.sha256 b (configDigest manifest) → configDigest manifest ≠ [] := by
    intro b hash hnil
    rw [hnil] at hash
    exact absurd hash (by unfold HashesTo; rw [show splitDigest [] = none by decide]; simp)
  rcases h with ⟨hnil, rfl⟩ | ⟨body, hbody, hash, hparse⟩
  · rcases h' with ⟨-, rfl⟩ | ⟨body', -, hash', -⟩
    · rfl
    · exact absurd hnil (hnone body' hash')
  · rcases h' with ⟨hnil, -⟩ | ⟨body', hbody', hash', hparse'⟩
    · exact absurd hnil (hnone body hash)
    · rw [hagree _ _ _ hbody hbody' hash hash', hparse'] at hparse
      exact (Except.ok.inj hparse).symm

/-- A weaker account of where the documents came from. -/
theorem Chain.mono (h : Chain env Body pin arch manifest documents)
    (hbody : ∀ d b, Body d b → Body' d b) : Chain env Body' pin arch manifest documents := by
  cases h with
  | direct h₁ h₂ h₃ h₄ => exact .direct (hbody _ _ h₁) h₂ h₃ h₄
  | child h₁ h₂ h₃ h₄ h₅ h₆ h₇ h₈ => exact .child (hbody _ _ h₁) h₂ h₃ h₄ h₅ (hbody _ _ h₆) h₇ h₈

end Chains

/-! ## What the steps keep -/

/-- The layers that were applied and the manifest cache, which most steps leave alone. -/
def Frame (applied : List (Str × Bytes)) (manifests : CacheDir) (s : PullState) : Prop :=
  s.applied = applied ∧ s.store.manifests = manifests

/-- One of the registry's answers. -/
def FromRegistry (env : PullEnv) (body : Bytes) : Prop :=
  ∃ i declared contentType, env.answers i = .body body declared contentType

section Steps

variable {env : PullEnv} {α : Type} {Q : α → Prop} {applied : List (Str × Bytes)}
  {manifests : CacheDir} {I : PullState → Prop} {Body : Str → Bytes → Prop} {pin arch : Str}
  {documents : Dict Str Bytes}

/-- A check keeps every state. -/
theorem lift_keeps {x : Except Fault α} (h : ∀ a, x = .ok a → Q a) : Proc.Keeps I (lift x) Q :=
  Proc.Keeps.look fun _ a _ hx => h a hx

theorem lookStore_keeps {f : Store → Except Fault α} (h : ∀ store a, f store = .ok a → Q a) :
    Proc.Keeps I (lookStore f) Q :=
  Proc.Keeps.look fun s a _ hx => h s.store a hx

theorem reported_keeps {p : PullM α} (h : Proc.Keeps I p Q) : Proc.Keeps I (reported p) Q := by
  refine Proc.Keeps.handle h fun e => ?_
  cases e <;> exact Proc.Keeps.fail

/-- A request answers what is made of one of the registry's answers. -/
theorem ask_keeps {accept : Bytes → Nat → Str → Except Fault α}
    (h : ∀ body declared contentType a, FromRegistry env body →
      accept body declared contentType = .ok a → Q a) :
    Proc.Keeps (Frame applied manifests) (ask env accept) Q := by
  intro s hs
  unfold ask
  rcases hanswer : env.answers s.asked with retryable | ⟨body, declared, contentType⟩
  · exact hs
  · rcases haccept : accept body declared contentType with e | a
    · simp only [haccept]
      exact hs
    · simp only [haccept]
      exact ⟨hs, h body declared contentType a ⟨s.asked, declared, contentType, hanswer⟩ haccept⟩

/-- What a request for metadata answers comes from the registry. -/
theorem metadata_keeps : Proc.Keeps (Frame applied manifests) (retryHttp (ask env acceptMetadata))
    fun answer => FromRegistry env answer.1 := by
  refine retryHttp_keeps (ask_keeps fun body declared contentType a hbody haccept => ?_)
  unfold acceptMetadata at haccept
  split at haccept
  · cases haccept
  · obtain ⟨-, -, haccept⟩ := Result.bind_ok haccept
    cases haccept
    exact hbody

/-- The bytes that pass the check are the ones checked, and have the digest. -/
theorem requireDataDigest_keeps {body : Bytes} {digest : Str} :
    Proc.Keeps I (lift (requireDataDigest env.sha256 body digest))
      fun body' => body' = body ∧ HashesTo env.sha256 body digest :=
  lift_keeps fun _ h => requireDataDigest_spec.mp h

/-- A manifest asked for comes from the registry. -/
theorem manifestBody_keeps (ref : Str) : Proc.Keeps (Frame applied manifests)
    (manifestBody env ref) fun answer => FromRegistry env answer.1 := by
  refine metadata_keeps.bind fun answer hanswer => ?_
  split
  · refine requireDataDigest_keeps.bind fun body hbody => Proc.Keeps.pure ?_
    rw [hbody.1]
    exact hanswer
  · exact Proc.Keeps.pure hanswer

/-- **What a pin resolves to** stands in a chain from it, whatever `fetch` hands back. -/
theorem resolvePinned_keeps {fetch : Str → PullM Bytes}
    (hfetch : ∀ d, Proc.Keeps I (fetch d) (Body d)) :
    Proc.Keeps I (resolvePinned env pin arch fetch) fun r => Chain env Body pin arch r.1 r.2 := by
  refine (hfetch pin).bind fun fetched hfetched => ?_
  refine requireDataDigest_keeps.bind fun body hbody => ?_
  obtain ⟨rfl, hash⟩ := hbody
  refine Proc.Keeps.bind (lift_keeps fun m hm => hm) fun manifest hparse => ?_
  by_cases hindex : isIndex manifest = true
  · rw [if_pos hindex]
    refine Proc.Keeps.bind (lift_keeps fun d hd => hd) fun child hchild => ?_
    refine (hfetch child).bind fun fetched' hfetched' => ?_
    refine requireDataDigest_keeps.bind fun body' hbody' => ?_
    obtain ⟨rfl, hash'⟩ := hbody'
    refine Proc.Keeps.bind (lift_keeps fun m hm => hm) fun manifest' hparse' => ?_
    exact Proc.Keeps.pure (.child hfetched hash hparse hindex hchild hfetched' hash' hparse')
  · rw [if_neg hindex]
    exact Proc.Keeps.pure (.direct hfetched hash hparse (Bool.eq_false_iff.mpr hindex))

/-- A call that may be refused answers as the call does, or not at all. -/
theorem unlessRefused_keeps {p : PullM α} (h : Proc.Keeps I p Q) :
    Proc.Keeps I (unlessRefused p) fun o => ∀ a, o = some a → Q a := by
  refine Proc.Keeps.handle (h.bind fun a ha => Proc.Keeps.pure fun b hb => ?_) fun e => ?_
  · rw [Option.some.injEq] at hb
    exact hb ▸ ha
  · cases e with
    | runtime =>
      refine Proc.Keeps.pure fun a ha => ?_
      cases ha
    | _ => exact Proc.Keeps.fail

/-- What an entry of the manifest cache records about an image. -/
def Recorded (env : PullEnv) (documents : Dict Str Bytes) (pin arch : Str)
    (image : Dict Str Json × Dict Str Json) : Prop :=
  (∃ chain, Chain env (fun d b => Dict.get documents d = some b) pin arch image.1 chain) ∧
    ConfigOf env (fun d b => Dict.get documents d = some b) image.1 image.2

/-- A document is taken as it is recorded. -/
theorem recorded_keeps (documents : Dict Str Bytes) (digest : Str) :
    Proc.Keeps I (match Dict.get documents digest with
      | none => Proc.fail .runtime
      | some body => pure body : PullM Bytes) fun b => Dict.get documents digest = some b := by
  rcases hget : Dict.get documents digest with _ | body
  · exact Proc.Keeps.fail
  · exact Proc.Keeps.pure rfl

/-- **What a hit answers** stands in a chain of the documents that were recorded. -/
theorem cachedPin_keeps (imageRef : Str) :
    Proc.Keeps (fun s => I s ∧ loadManifestDocuments env.c imageRef arch s.store = .ok documents)
      (cachedPin env imageRef pin arch) fun hit => ∀ image, hit = some image →
        documents ≠ [] ∧ Recorded env documents pin arch image := by
  have hlook : Proc.Keeps
      (fun s => I s ∧ loadManifestDocuments env.c imageRef arch s.store = .ok documents)
      (lookStore (loadManifestDocuments env.c imageRef arch)) fun d => d = documents := by
    refine Proc.Keeps.look fun s d hs hd => ?_
    rw [hs.2] at hd
    exact (Except.ok.inj hd).symm
  refine hlook.bind fun d hd => ?_
  subst hd
  by_cases hempty : d = []
  · rw [if_pos hempty]
    refine Proc.Keeps.pure fun image himage => ?_
    cases himage
  · rw [if_neg hempty]
    refine Proc.Keeps.mono (unlessRefused_keeps (Q := Recorded env d pin arch) ?_)
      fun hit hhit image himage => ⟨hempty, hhit image himage⟩
    refine (resolvePinned_keeps (recorded_keeps d)).bind fun resolved hchain => ?_
    by_cases hdigest : configDigest resolved.1 = []
    · rw [if_pos hdigest]
      exact Proc.Keeps.pure ⟨⟨_, hchain⟩, .inl ⟨hdigest, rfl⟩⟩
    · rw [if_neg hdigest]
      refine (recorded_keeps d _).bind fun fetched hfetched => ?_
      refine requireDataDigest_keeps.bind fun body hbody => ?_
      obtain ⟨rfl, hash⟩ := hbody
      refine Proc.Keeps.bind (lift_keeps fun c hc => hc) fun config hparse => ?_
      exact Proc.Keeps.pure ⟨⟨_, hchain⟩, .inr ⟨_, hfetched, hash, hparse⟩⟩

/-- The documents of a pull that are put on record: all of them came from the registry. -/
structure FromAnswers (env : PullEnv) (documents : Dict Str Bytes) : Prop where
  nodup : (Dict.keys documents).Nodup
  ne_nil : documents ≠ []
  body : ∀ d b, Dict.get documents d = some b → FromRegistry env b

/-- One more answer of the registry among the documents. -/
theorem fromAnswers_set {digest : Str} {body : Bytes} (hbody : FromRegistry env body)
    (hnodup : (Dict.keys documents).Nodup)
    (hall : ∀ d b, Dict.get documents d = some b → FromRegistry env b) :
    FromAnswers env (Dict.set documents digest body) := by
  refine ⟨Dict.nodup_set hnodup, fun hnil => ?_, fun d b hget => ?_⟩
  · have hget : Dict.get (Dict.set documents digest body) digest = some body := Dict.get_set_self
    rw [hnil] at hget
    cases hget
  · rw [Dict.get_set] at hget
    split at hget
    · cases hget
      exact hbody
    · exact hall d b hget

/-- Every document of a chain was answered by the registry. -/
theorem chain_fromAnswers {manifest : Dict Str Json}
    (h : Chain env (fun _ b => FromRegistry env b) pin arch manifest documents) :
    FromAnswers env documents := by
  have hempty : ∀ (d : Str) (b : Bytes), Dict.get ([] : Dict Str Bytes) d = some b →
      FromRegistry env b := by
    intro d b hget
    cases hget
  have hnil : (Dict.keys ([] : Dict Str Bytes)).Nodup := List.nodup_nil
  cases h with
  | direct hbody => exact fromAnswers_set hbody hnil hempty
  | @child body _ _ _ _ hbody _ _ _ _ hbody' =>
    have hfirst : FromAnswers env (Dict.set [] pin body) := fromAnswers_set hbody hnil hempty
    exact fromAnswers_set hbody' hfirst.nodup hfirst.body

/-- **What the registry answers for a pin** stands in a chain from it. -/
theorem fetchPinned_keeps {ref : Reference} (hpin : ref.digest ≠ []) :
    Proc.Keeps (Frame applied manifests) (fetchPinned env ref arch) fun image =>
      (∃ chain, Chain env (fun _ b => FromRegistry env b) ref.digest arch image.1 chain) ∧
        ConfigOf env (fun _ b => FromRegistry env b) image.1 image.2.1 ∧
        FromAnswers env image.2.2 := by
  have hauth : Proc.Keeps (Frame applied manifests) (getAuthToken env) fun _ => True := by
    unfold getAuthToken
    split
    · exact Proc.Keeps.pure trivial
    · exact Proc.Keeps.fail
  have hresolve : Proc.Keeps (Frame applied manifests) (resolveSingleManifest env ref arch)
      fun r => Chain env (fun _ b => FromRegistry env b) ref.digest arch r.1 r.2 := by
    refine hauth.bind fun _ _ => ?_
    rw [if_pos hpin]
    refine resolvePinned_keeps fun d => ?_
    exact (manifestBody_keeps d).bind fun answer hanswer => Proc.Keeps.pure hanswer
  refine hresolve.bind fun resolved hchain => ?_
  have hanswers := chain_fromAnswers hchain
  refine Proc.Keeps.bind (Q := fun x => ConfigOf env (fun _ b => FromRegistry env b) resolved.1 x.1 ∧
    FromAnswers env x.2) ?_ fun x hx => Proc.Keeps.pure ⟨⟨_, hchain⟩, hx.1, hx.2⟩
  unfold pinnedConfig
  by_cases hdigest : configDigest resolved.1 = []
  · simp only [if_pos hdigest]
    exact Proc.Keeps.pure ⟨.inl ⟨hdigest, rfl⟩, hanswers⟩
  · simp only [if_neg hdigest]
    have hconfig : Proc.Keeps (Frame applied manifests)
        (downloadConfig env (configDigest resolved.1)) fun body =>
          FromRegistry env body ∧ HashesTo env.sha256 body (configDigest resolved.1) := by
      unfold downloadConfig
      split
      · exact Proc.Keeps.fail
      · refine metadata_keeps.bind fun answer hanswer => ?_
        refine requireDataDigest_keeps.mono fun body hbody => ?_
        rw [hbody.1]
        exact ⟨hanswer, hbody.2⟩
    refine hconfig.bind fun body hbody => ?_
    refine Proc.Keeps.bind (lift_keeps fun c hc => hc) fun config hparse => ?_
    exact Proc.Keeps.pure ⟨.inr ⟨body, hbody.1, hbody.2, hparse⟩,
      fromAnswers_set hbody.1 hanswers.nodup hanswers.body⟩

/-! ## Layers -/

/-- A layer that opens has its digest. -/
theorem openLayer_keeps (digest : Str) : Proc.Keeps (Frame applied manifests) (openLayer env digest)
    fun o => ∀ content, o = some content → HashesTo env.sha256 content digest := by
  intro s hs
  unfold openLayer
  rcases hopen : openVerifiedLayer env.c.h digest s.store.layers with e | ⟨content, layers⟩
  · exact hs
  · refine ⟨hs, fun content' hcontent => ?_⟩
    subst hcontent
    exact openVerifiedLayer_spec hopen

/-- The contents that were found usable hash to their digests. -/
def Usable (env : PullEnv) (usable : Dict Str Bytes) : Prop :=
  ∀ d content, Dict.get usable d = some content → HashesTo env.sha256 content d

theorem usableCachedLayers_keeps (layers : List (Str × Json)) :
    Proc.Keeps (Frame applied manifests) (usableCachedLayers env layers) (Usable env) := by
  refine Proc.Keeps.thread (fun d content hget => by cases hget) fun layer _ usable husable => ?_
  unfold addUsable
  split
  · exact Proc.Keeps.pure husable
  · refine (openLayer_keeps layer.1).bind fun o ho => ?_
    cases o with
    | none => exact Proc.Keeps.pure husable
    | some content =>
      refine Proc.Keeps.pure fun d content' hget => ?_
      rw [Dict.get_set] at hget
      split at hget
      · rename_i heq
        cases hget
        exact heq ▸ ho content rfl
      · exact husable d content' hget

/-- **A layer that is downloaded** hashes to its digest, whether it was found or fetched. -/
theorem downloadBlob_keeps (digest : Str) : Proc.Keeps (Frame applied manifests)
    (downloadBlob env digest) fun content => HashesTo env.sha256 content digest := by
  refine (openLayer_keeps digest).bind fun o ho => ?_
  cases o with
  | some content => exact Proc.Keeps.pure (ho content rfl)
  | none =>
    simp only
    split
    · rename_i name parts hname hparts
      refine retryHttp_keeps ?_
      refine Proc.Keeps.bind (lookStore_keeps fun _ _ _ => trivial) fun _ _ => ?_
      refine Proc.Keeps.bind (Q := fun bytes => env.sha256 bytes = parts.2)
        (ask_keeps fun body declared contentType a _ haccept => ?_) fun bytes hbytes => ?_
      · obtain ⟨-, -, haccept⟩ := Result.bind_ok haccept
        split at haccept
        · rename_i hhash
          cases haccept
          exact hhash
        · cases haccept
      · refine Proc.Keeps.bind (Proc.Keeps.change fun s s' hs hchange => ?_) fun _ _ =>
          Proc.Keeps.pure ?_
        · obtain ⟨store, hstore, rfl⟩ := Result.map_ok hchange
          obtain ⟨layers, -, hstore⟩ := Result.bind_ok hstore
          cases hstore
          exact hs
        · unfold HashesTo
          rw [hparts, ← splitDigest_fst hparts, hbytes]
    · exact Proc.Keeps.fail

/-- A layer that is applied is noted with its content, and no manifest changes. -/
theorem applyLayer_ok {digest : Str} {content : Bytes} {s s' : PullState}
    (h : applyLayer env digest content s = (.ok (), s')) :
    s'.applied = s.applied ++ [(digest, content)] ∧ s'.store.manifests = s.store.manifests := by
  obtain ⟨isMatch, s₁, hlift, happly⟩ := Proc.bind_eq_ok h
  have hsame := (Proc.look_eq_ok hlift).2
  subst hsame
  split at happly
  · cases happly
    exact ⟨rfl, rfl⟩
  · cases happly

/-- One turn applies the layer, whose content hashes to its digest. -/
theorem pullLayer_ok {usable : Dict Str Bytes} {layer : Str × Json} {s s' : PullState}
    (husable : Usable env usable) (h : pullLayer env usable layer s = (.ok (), s')) :
    ∃ content, HashesTo env.sha256 content layer.1 ∧
      s'.applied = s.applied ++ [(layer.1, content)] ∧
      s'.store.manifests = s.store.manifests := by
  unfold pullLayer at h
  split at h
  · rw [Proc.fail_apply, Prod.mk.injEq] at h
    cases h.1
  · obtain ⟨content, s₁, hcontent, happly⟩ := Proc.bind_eq_ok h
    obtain ⟨happlied, hmanifests⟩ := applyLayer_ok happly
    have hget : Proc.Keeps (Frame s.applied s.store.manifests)
        (layerContent env usable layer.1) fun content => HashesTo env.sha256 content layer.1 := by
      unfold layerContent
      rcases hlookup : Dict.get usable layer.1 with _ | content
      · exact reported_keeps (downloadBlob_keeps layer.1)
      · exact Proc.Keeps.pure (husable _ _ hlookup)
    have hframe := hget s ⟨rfl, rfl⟩
    rw [hcontent] at hframe
    obtain ⟨⟨hsame, hsame'⟩, hash⟩ := hframe
    exact ⟨content, hash, by rw [happlied, hsame], by rw [hmanifests, hsame']⟩

/-- The layers that were applied between two states. -/
def LayersApplied (env : PullEnv) (layers : List (Str × Json)) (s s' : PullState) : Prop :=
  ∃ new, s'.applied = s.applied ++ new ∧ new.map Prod.fst = layers.map Prod.fst ∧
    ∀ x ∈ new, HashesTo env.sha256 x.2 x.1

/-- The layers of a pull are applied in order, each with its digest. -/
theorem each_pullLayer_ok {usable : Dict Str Bytes} {layers : List (Str × Json)}
    {s s' : PullState} (husable : Usable env usable)
    (h : Proc.each (pullLayer env usable) layers s = (.ok (), s')) :
    LayersApplied env layers s s' ∧ s'.store.manifests = s.store.manifests := by
  induction layers generalizing s with
  | nil =>
    rw [Proc.each_nil, Prod.mk.injEq] at h
    rw [← h.2]
    exact ⟨⟨[], by simp, rfl, by simp⟩, rfl⟩
  | cons layer layers ih =>
    obtain ⟨s₁, hfirst, hrest⟩ := Proc.each_cons_eq_ok h
    obtain ⟨content, hash, happlied, hmanifests⟩ := pullLayer_ok husable hfirst
    obtain ⟨⟨new, hnew, hdigests, hall⟩, hmanifests'⟩ := ih hrest
    refine ⟨⟨(layer.1, content) :: new, ?_, ?_, ?_⟩, by rw [hmanifests', hmanifests]⟩
    · rw [hnew, happlied, List.append_assoc]
      rfl
    · rw [List.map_cons, List.map_cons, hdigests]
    · intro x hx
      rcases List.mem_cons.mp hx with rfl | hx
      · exact hash
      · exact hall x hx

/-- **The end of a pull**: the image is returned, and each of its layers was applied. -/
theorem pullLayers_ok {image image' : Pulled} {manifest : Json} {layers : List (Str × Json)}
    {usable : Dict Str Bytes} {s s₁ s₂ s₃ : PullState}
    (hprepare : prepareLayers env manifest s = (.ok (layers, usable), s₁))
    (hsame : s₂.applied = s₁.applied ∧ s₂.store.manifests = s₁.store.manifests)
    (h : pullLayers env image layers usable s₂ = (.ok image', s₃)) :
    image' = image ∧ layersOf manifest = .ok layers ∧ LayersApplied env layers s s₃ ∧
      s₃.store.manifests = s.store.manifests := by
  obtain ⟨layers', s', hlift, hsecond⟩ := Proc.bind_eq_ok hprepare
  obtain ⟨hlayers, hstart⟩ := Proc.look_eq_ok hlift
  obtain ⟨usable', s'', husable, hpure⟩ := Proc.bind_eq_ok hsecond
  rw [Proc.pure_apply, Prod.mk.injEq] at hpure
  obtain ⟨hpair, hend⟩ := hpure
  cases hpair
  subst hstart hend
  have hframe := @usableCachedLayers_keeps env s'.applied s'.store.manifests layers s' ⟨rfl, rfl⟩
  rw [husable] at hframe
  obtain ⟨⟨happlied, hmanifests⟩, hcontents⟩ := hframe
  unfold pullLayers at h
  split at h
  · rw [Proc.fail_apply, Prod.mk.injEq] at h
    cases h.1
  · obtain ⟨_, s₄, heach, h⟩ := Proc.bind_eq_ok h
    rw [Proc.pure_apply, Prod.mk.injEq] at h
    obtain ⟨himage, rfl⟩ := h
    cases himage
    obtain ⟨⟨new, hnew, hdigests, hall⟩, hafter⟩ := each_pullLayer_ok hcontents heach
    refine ⟨rfl, hlayers, ⟨new, ?_, hdigests, hall⟩, ?_⟩
    · rw [hnew, hsame.1, happlied]
    · rw [hafter, hsame.2, hmanifests]

end Steps

/-! ## Pinned pulls -/

/-- The manifest is parsed from bytes that hash to the pin, or from those of a child that is named by
an index whose bytes do. -/
def TrustedManifest (env : PullEnv) (pin : Str) (manifest : Dict Str Json) : Prop :=
  (∃ body, HashesTo env.sha256 body pin ∧ parseManifest env body [] = .ok manifest) ∨
    ∃ body index digest body', HashesTo env.sha256 body pin ∧
      parseManifest env body [] = .ok index ∧ IndexNames index digest ∧
      HashesTo env.sha256 body' digest ∧ parseManifest env body' [] = .ok manifest

/-- The image stands on the pin, and the layers that were applied are those of its manifest. -/
def ChainOfTrust (env : PullEnv) (pin : Str) (image : Pulled) (s s' : PullState) : Prop :=
  ∃ manifest config, image = ⟨.obj manifest, .obj config⟩ ∧ TrustedManifest env pin manifest ∧
    ConfigOf env (fun _ _ => True) manifest config ∧
    ∃ layers, layersOf (.obj manifest) = .ok layers ∧ LayersApplied env layers s s'

/-- The registry has sent two documents with one hash. -/
def Collides (env : PullEnv) : Prop :=
  ∃ b b', FromRegistry env b ∧ FromRegistry env b' ∧ b ≠ b' ∧ env.sha256 b = env.sha256 b'

section Pulls

variable {env : PullEnv} {imageRef arch pin : Str} {ref : Reference} {image : Pulled}
  {s s' : PullState} {Body : Str → Bytes → Prop}

/-- The manifest of a chain is trusted, whoever gave the documents. -/
theorem chain_trusted {manifest : Dict Str Json} {documents : Dict Str Bytes}
    (h : Chain env Body pin arch manifest documents) : TrustedManifest env pin manifest := by
  cases h with
  | direct _ hash hparse _ => exact .inl ⟨_, hash, hparse⟩
  | child _ hash hparse _ hchild _ hash' hparse' =>
    exact .inr ⟨_, _, _, _, hash, hparse, childDigest_named hchild, hash', hparse'⟩

/-- The configuration of a manifest is one, whoever gave the document. -/
theorem configOf_anywhere {manifest config : Dict Str Json} (h : ConfigOf env Body manifest config) :
    ConfigOf env (fun _ _ => True) manifest config := by
  rcases h with hnone | ⟨body, -, hash, hparse⟩
  · exact .inl hnone
  · exact .inr ⟨body, trivial, hash, hparse⟩

/-- A hit comes with the documents it was verified by, and changes nothing. -/
theorem cachedImage_hit (hpin : ref.digest ≠ [])
    (h : cachedImage env imageRef ref arch s = (.ok (some image), s')) :
    s' = s ∧ ∃ documents manifest config, image = ⟨.obj manifest, .obj config⟩ ∧
      loadManifestDocuments env.c imageRef arch s.store = .ok documents ∧ documents ≠ [] ∧
      Recorded env documents ref.digest arch (manifest, config) := by
  unfold cachedImage at h
  rw [if_pos hpin] at h
  obtain ⟨hit, s₁, hcached, hpure⟩ := Proc.bind_eq_ok h
  cases hit with
  | none => cases hpure
  | some x =>
    cases hpure
    obtain ⟨documents, hload⟩ : ∃ documents,
        loadManifestDocuments env.c imageRef arch s.store = .ok documents := by
      obtain ⟨documents, _, hlook, -⟩ := Proc.bind_eq_ok hcached
      exact ⟨documents, (Proc.look_eq_ok hlook).1⟩
    have hkeeps := @cachedPin_keeps env (fun q => q = s) ref.digest arch documents imageRef s
      ⟨rfl, hload⟩
    rw [hcached] at hkeeps
    obtain ⟨⟨hstate, -⟩, hrecorded⟩ := hkeeps
    obtain ⟨hne, hchain⟩ := hrecorded x rfl
    exact ⟨hstate, documents, x.1, x.2, rfl, hload, hne, hchain⟩

/-- A miss changes nothing. -/
theorem cachedImage_miss (hpin : ref.digest ≠ [])
    (h : cachedImage env imageRef ref arch s = (.ok none, s')) : s' = s := by
  unfold cachedImage at h
  rw [if_pos hpin] at h
  obtain ⟨hit, s₁, hcached, hpure⟩ := Proc.bind_eq_ok h
  cases hit with
  | some x => cases hpure
  | none =>
    cases hpure
    obtain ⟨documents, hload⟩ : ∃ documents,
        loadManifestDocuments env.c imageRef arch s.store = .ok documents := by
      obtain ⟨documents, _, hlook, -⟩ := Proc.bind_eq_ok hcached
      exact ⟨documents, (Proc.look_eq_ok hlook).1⟩
    have hkeeps := @cachedPin_keeps env (fun q => q = s) ref.digest arch documents imageRef s
      ⟨rfl, hload⟩
    rw [hcached] at hkeeps
    exact hkeeps.1.1

/-- A pull that goes by the cache returns what the cache answered. -/
theorem pullCached_ok {image' : Pulled} (h : pullCached env imageRef arch image s = (.ok image', s')) :
    image' = image ∧ ∃ layers, layersOf image.manifest = .ok layers ∧ LayersApplied env layers s s' := by
  obtain ⟨_, s₁, hannotate, hrest⟩ := Proc.bind_eq_ok h
  obtain ⟨⟨layers, usable⟩, s₂, hprepare, hlayers⟩ := Proc.bind_eq_ok hrest
  obtain ⟨_, s₃, hauth, hpull⟩ := Proc.bind_eq_ok hlayers
  have happlied : s₁.applied = s.applied := by
    have hkeeps : Proc.Keeps (fun q : PullState => q.applied = s.applied)
        (changeStore (annotateManifestCache env.c imageRef arch)) fun _ => True := by
      refine Proc.Keeps.change fun q q' hq hchange => ?_
      obtain ⟨store, -, rfl⟩ := Result.map_ok hchange
      exact hq
    have := hkeeps s rfl
    rw [hannotate] at this
    exact this.1
  have hsame : s₃ = s₂ := by
    unfold authorizeMissing getAuthToken at hauth
    split at hauth
    · cases hauth
      rfl
    · split at hauth
      · cases hauth
        rfl
      · cases hauth
  obtain ⟨himage, hlayersOf, ⟨new, hnew, hdigests, hall⟩, -⟩ :=
    pullLayers_ok hprepare (hsame ▸ ⟨rfl, rfl⟩) hpull
  exact ⟨himage, layers, hlayersOf, new, by rw [hnew, happlied], hdigests, hall⟩

/-- A pull that goes to the registry puts on record what it returns. -/
theorem pullFresh_ok (hpin : ref.digest ≠ [])
    (h : pullFresh env imageRef ref arch s = (.ok image, s')) :
    ∃ manifest config documents store store', image = ⟨.obj manifest, .obj config⟩ ∧
      (∃ chain, Chain env (fun _ b => FromRegistry env b) ref.digest arch manifest chain) ∧
      ConfigOf env (fun _ b => FromRegistry env b) manifest config ∧ FromAnswers env documents ∧
      saveManifestCache env.c imageRef arch (.obj manifest) ref.repo (.obj config) documents store =
        .ok store' ∧ s'.store.manifests = store'.manifests ∧
      ∃ layers, layersOf (.obj manifest) = .ok layers ∧ LayersApplied env layers s s' := by
  obtain ⟨found, s₁, hfetch, hrest⟩ := Proc.bind_eq_ok h
  obtain ⟨⟨manifest, config, documents⟩, s₃, hfresh, hsave⟩ := Proc.bind_eq_ok hfetch
  obtain ⟨_, s₄, hchange, hpure⟩ := Proc.bind_eq_ok hsave
  cases hpure
  obtain ⟨⟨layers, usable⟩, s₂, hprepare, hpull⟩ := Proc.bind_eq_ok hrest
  unfold freshImage at hfresh
  rw [if_pos hpin] at hfresh
  have hkeeps := reported_keeps (@fetchPinned_keeps env s.applied s.store.manifests arch ref hpin)
    s ⟨rfl, rfl⟩
  rw [hfresh] at hkeeps
  obtain ⟨⟨happlied, -⟩, hchain, hconfig, hanswers⟩ := hkeeps
  have hstored : ∃ store', saveManifestCache env.c imageRef arch (.obj manifest) ref.repo
      (.obj config) documents s₃.store = .ok store' ∧ s₁ = { s₃ with store := store' } := by
    unfold changeStore Proc.change at hchange
    rcases hsaved : saveManifestCache env.c imageRef arch (.obj manifest) ref.repo (.obj config)
      documents s₃.store with e | store'
    · simp only [hsaved, Except.map] at hchange
      cases hchange
    · simp only [hsaved, Except.map] at hchange
      cases hchange
      exact ⟨store', rfl, rfl⟩
  obtain ⟨store', hsaved, rfl⟩ := hstored
  obtain ⟨himage, hlayersOf, ⟨new, hnew, hdigests, hall⟩, hmanifests⟩ :=
    pullLayers_ok hprepare ⟨rfl, rfl⟩ hpull
  refine ⟨manifest, config, documents, s₃.store, store', himage, hchain, hconfig, hanswers, hsaved,
    hmanifests, layers, hlayersOf, new, ?_, hdigests, hall⟩
  rw [hnew]
  exact congrArg (· ++ new) happlied

/-- **A hit answers what was recorded**, unless the registry has sent two documents with one hash. -/
theorem recorded_image {manifest config manifest' config' : Dict Str Json}
    {documents : Dict Str Bytes} (hanswers : FromAnswers env documents)
    (hchain : ∃ chain, Chain env (fun _ b => FromRegistry env b) pin arch manifest chain)
    (hconfig : ConfigOf env (fun _ b => FromRegistry env b) manifest config)
    (hrecorded : Recorded env documents pin arch (manifest', config')) :
    manifest' = manifest ∧ config' = config ∨ Collides env := by
  by_cases hcollides : Collides env
  · exact .inr hcollides
  · have hagree : ∀ d b b', Dict.get documents d = some b → FromRegistry env b' →
        HashesTo env.sha256 b d → HashesTo env.sha256 b' d → b = b' := by
      intro d b b' hget hb' hash hash'
      unfold HashesTo at hash hash'
      rw [hash] at hash'
      by_contra hne
      exact hcollides ⟨b, b', hanswers.body d b hget, hb', hne,
        (Prod.mk.inj (Option.some.inj hash')).2⟩
    obtain ⟨⟨chain', hchain'⟩, hconfig'⟩ := hrecorded
    obtain ⟨chain, hchain⟩ := hchain
    have hmanifest : manifest' = manifest := chain_unique hagree hchain' hchain
    subst hmanifest
    exact .inl ⟨rfl, configOf_unique hagree hconfig' hconfig⟩

/-- **A pinned pull is a chain of trust.** If a pull of a reference that is pinned by a digest
returns, its manifest, its config and the layers it applied stand on the digest; and if it went to
the registry, every later pull that finds its entry in the manifest cache returns the same image
(short of two documents of the registry with one SHA-256). -/
theorem pinned_pull_trusted (hparse : parseReference imageRef = some ref) (hpin : ref.digest ≠ [])
    (h : pullImage env imageRef arch s = (.ok image, s')) :
    ChainOfTrust env ref.digest image s s' ∧
      ((cachedImage env imageRef ref arch s).1 = .ok none → ReadsBack env.c →
        ∀ later later' image',
          later.store.manifests.node (manifestCacheName env.sha256 imageRef arch) =
            s'.store.manifests.node (manifestCacheName env.sha256 imageRef arch) →
          (cachedImage env imageRef ref arch later).1 ≠ .ok none →
          pullImage env imageRef arch later = (.ok image', later') →
          image' = image ∨ Collides env) := by
  unfold pullImage at h
  rw [hparse] at h
  obtain ⟨hit, s₁, hcached, hpull⟩ := Proc.bind_eq_ok h
  -- an entry of the manifest cache is found, or the registry is asked
  cases hit with
  | some found =>
    obtain ⟨rfl, documents, manifest, config, himage, -, -, hchain, hconfig⟩ :=
      cachedImage_hit hpin hcached
    obtain ⟨rfl, layers, hlayers, happlied⟩ := pullCached_ok hpull
    subst himage
    refine ⟨⟨manifest, config, rfl, ?_, configOf_anywhere hconfig, layers, hlayers, happlied⟩, ?_⟩
    · obtain ⟨chain, hchain⟩ := hchain
      exact chain_trusted hchain
    · intro hmiss
      rw [hcached] at hmiss
      cases hmiss
  | none =>
    have hstart := cachedImage_miss hpin hcached
    subst hstart
    obtain ⟨manifest, config, documents, store, store', himage, hchain, hconfig, hanswers, hsave,
      hmanifests, layers, hlayers, happlied⟩ := pullFresh_ok hpin hpull
    subst himage
    refine ⟨⟨manifest, config, rfl, ?_, configOf_anywhere hconfig, layers, hlayers, happlied⟩, ?_⟩
    · obtain ⟨chain, hchain⟩ := hchain
      exact chain_trusted hchain
    -- a later pull that finds the entry reads back the documents that this one saved
    · intro _ hback later later' image' hsame hfound hlater
      unfold pullImage at hlater
      rw [hparse] at hlater
      obtain ⟨hit, s₂, hcached', hpull'⟩ := Proc.bind_eq_ok hlater
      cases hit with
      | none =>
        rw [hcached'] at hfound
        exact absurd rfl hfound
      | some found =>
        obtain ⟨-, documents', manifest', config', himage', hload, hne, hrecorded⟩ :=
          cachedImage_hit hpin hcached'
        rw [hmanifests] at hsame
        have hdocuments : documents' = documents :=
          loadManifestDocuments_save hback hanswers.nodup hanswers.ne_nil hsave hsame hload hne
        subst hdocuments
        rw [(pullCached_ok hpull').1, himage']
        refine (recorded_image hanswers hchain hconfig hrecorded).imp_left ?_
        rintro ⟨rfl, rfl⟩
        rfl

end Pulls

/-! A pull of an image that is pinned, and its entry read back. -/

def layerHex : Str := "ba7816bf8f01cfea414140de5dae2223b00361a396177a9cb410ff61f20015ad".toList

def manifestDoc : Str :=
  "\x7b\"layers\":[\x7b\"digest\":\"sha256:".toList ++ layerHex ++ "\"\x7d]\x7d".toList

def manifestHex : Str := "aedd9566d15253c26b4e1d6600f1f2183ce6316f1b2d3c2a26b965b99cd65a3b".toList

def manifestDigest : Str := "sha256:".toList ++ manifestHex

def pinnedUbuntu : Str := "ubuntu@".toList ++ manifestDigest

def manifestFields : Dict Str Json :=
  [("layers".toList, .arr [.obj [("digest".toList, .str ("sha256:".toList ++ layerHex))]])]

/-- What the entry of the pull holds. -/
def pinnedEntry : Json :=
  .obj (entryPayload pinnedUbuntu "x86_64".toList (.obj (manifestFields ++ [(ctKey, .str [])]))
    "library/ubuntu".toList (.obj []) [(manifestDigest, utf8 manifestDoc)])

def entryDoc : Str :=
  "\x7b\"image_ref\": \"".toList ++ pinnedUbuntu ++
    "\", \"arch\": \"x86_64\", \"manifest\": \x7b".toList ++
    "\"layers\": [\x7b\"digest\": \"sha256:".toList ++ layerHex ++
    "\"\x7d], \"_ct\": \"\"\x7d, \"repo\": \"library/ubuntu\", ".toList ++
    "\"image_config\": \x7b\x7d, \"documents\": \x7b\"".toList ++ manifestDigest ++
    "\": \"".toList ++ Base64.encode (utf8 manifestDoc) ++ "\"\x7d\x7d".toList

def ubuntuDocs : Dict Bytes Json :=
  [(utf8 manifestDoc, .obj manifestFields), (utf8 entryDoc, pinnedEntry)]

def ubuntuHashes : Dict Bytes Str :=
  [(utf8 manifestDoc, manifestHex), (utf8 "abc".toList, layerHex),
    (utf8 ("library/ubuntu@".toList ++ manifestDigest ++ "_x86_64".toList),
      "12bb86660e461b6746d37a2f32148bce591329da21d6492d9f28357dee12c1da".toList)]

/-- A registry that answers a pull of the image once. -/
def ubuntuRegistry : PullEnv where
  c :=
    { h := { env := .ofDocs ubuntuDocs, sha256 := fun data => (Dict.get ubuntuHashes data).getD [] }
      dumps := fun j => if j = pinnedEntry then utf8 entryDoc else [] }
  answers
    | 0 => .body (utf8 manifestDoc) 97 []
    | 1 => .body (utf8 "abc".toList) 3 []
    | _ => .fails false
  authorizes := true
  extracts _ := true
  zstd := false

/-- A run that answers has an answer. -/
theorem run_of_isSome {σ ε α : Type} {x : Except ε α × σ} (h : x.1.toOption.isSome = true) :
    ∃ a, x = (.ok a, x.2) := by
  obtain ⟨e | a, s⟩ := x
  · cases h
  · exact ⟨a, rfl⟩

/-- An answer of nothing. -/
theorem none_of_isNone {ε α : Type} {x : Except ε (Option α)}
    (h : x.toOption.map Option.isNone = some true) : x = .ok none := by
  obtain e | o := x
  · cases h
  · rw [Option.isNone_iff_eq_none.mp (Option.some.inj h)]

/-- A reader that answers the one document that is ever written. -/
theorem readsBack_ofDocs {docs : Dict Bytes Json} {sha256 : Bytes → Str} {entry : Json}
    {doc : Bytes} (hdoc : Dict.get docs doc = some entry) (hnone : Dict.get docs [] = none) :
    ReadsBack ⟨⟨.ofDocs docs, sha256⟩, fun j => if j = entry then doc else []⟩ := by
  intro fields fields' key strings _ _ _ hget hload
  change (Dict.get docs (if Json.obj fields = entry then doc else [])).elim _ _ = _ at hload
  by_cases hentry : Json.obj fields = entry
  · rw [if_pos hentry, hdoc, ← hentry] at hload
    cases hload
    exact hget
  · rw [if_neg hentry, hnone] at hload
    cases hload

def emptyState : PullState := ⟨⟨.missing, .missing, .missing⟩, 0, []⟩

def ubuntuReference : Reference := ⟨[], "library/ubuntu".toList, [], manifestDigest⟩

/-- The image is pulled, and once more with the registry gone. -/
theorem pinned_pull_trusted_ubuntu :
    ∃ image s' image' later,
      pullImage ubuntuRegistry pinnedUbuntu "x86_64".toList emptyState = (.ok image, s') ∧
        pullImage ubuntuRegistry pinnedUbuntu "x86_64".toList s' = (.ok image', later) ∧
        ChainOfTrust ubuntuRegistry manifestDigest image emptyState s' ∧
        (image' = image ∨ Collides ubuntuRegistry) := by
  have hmiss : ((cachedImage ubuntuRegistry pinnedUbuntu ubuntuReference "x86_64".toList
      emptyState).1.toOption.map Option.isNone) = some true := by
    decide +kernel
  have hruns : (pullImage ubuntuRegistry pinnedUbuntu "x86_64".toList emptyState).1.toOption.isSome =
        true ∧
      (pullImage ubuntuRegistry pinnedUbuntu "x86_64".toList (pullImage ubuntuRegistry pinnedUbuntu
        "x86_64".toList emptyState).2).1.toOption.isSome = true ∧
      ((cachedImage ubuntuRegistry pinnedUbuntu ubuntuReference "x86_64".toList (pullImage
        ubuntuRegistry pinnedUbuntu "x86_64".toList emptyState).2).1.toOption.bind id).isSome =
        true := by
    decide +kernel
  obtain ⟨hfirst, hsecond, hhit⟩ := hruns
  obtain ⟨image, hpull⟩ := run_of_isSome hfirst
  obtain ⟨image', hagain⟩ := run_of_isSome hsecond
  obtain ⟨htrust, hlater⟩ := pinned_pull_trusted (show parseReference pinnedUbuntu =
    some ubuntuReference by decide +kernel) (by decide +kernel) hpull
  refine ⟨image, _, image', _, hpull, hagain, htrust, ?_⟩
  refine hlater (none_of_isNone hmiss)
    (readsBack_ofDocs (by decide +kernel) (by decide +kernel)) _ _ image' rfl (fun hnone => ?_) hagain
  rw [hnone] at hhit
  cases hhit

end Docker

end ProotDistro
