import VerifyFiredancer.CachePrivate

/-!
# Which header is recovered

By pointer arithmetic a header is recovered from every pointer that was obtained from it. Under `__SEAHORN__` the header is that
of the one global, which `fd_mcache_private_mcache` sets and recovering does not (`CacheHeaderAux.glbPtr_calls`): it is recovered
from exactly the pointers of the header that function was called with last, or of the one the global held before any call
(`cacheHdr_recovers`). So the first of two headers is lost, and so is a single one whose pointer comes from
`fd_mcache_private_cache_const`, since that sets the other global, from which nothing is recovered (`cacheHdr_two_headers`).
-/

namespace VerifyFiredancer

/-- The header of a call of `fd_mcache_private_mcache` or `fd_dcache_private_dcache`. -/
def CacheCall.cached : CacheCall → Option Ulong
  | .cache h => some h
  | _ => none

/-- The header a call obtains a pointer from. -/
def CacheCall.header : CacheCall → Option Ulong
  | .cacheConst h => some h
  | .cache h => some h
  | _ => none

/-- The header of the last such call. -/
def lastCached : List CacheCall → Option Ulong
  | [] => none
  | call :: calls => (lastCached calls).or call.cached

/-- After a sequence of calls, each header is recovered from the pointers obtained from it. -/
def RecoversHeader {S : Type} (v : CacheVariant S) (glb : S) (calls : List CacheCall) : Prop :=
  ∀ o ∈ (cacheCalls v ⟨glb, []⟩ calls).obtained,
    v.hdrConst (cacheCalls v ⟨glb, []⟩ calls).glb o.cache = o.hdr ∧ v.hdr (cacheCalls v ⟨glb, []⟩ calls).glb o.cache = o.hdr

/-- After a sequence of calls, of all pointers obtained, those of one header are the ones from which their header is recovered. -/
def RecoversOnly {S : Type} (v : CacheVariant S) (glb : S) (calls : List CacheCall) (last : Ulong) : Prop :=
  ∀ o ∈ (cacheCalls v ⟨glb, []⟩ calls).obtained,
    (v.hdrConst (cacheCalls v ⟨glb, []⟩ calls).glb o.cache = o.hdr ↔ o.hdr = last) ∧
    (v.hdr (cacheCalls v ⟨glb, []⟩ calls).glb o.cache = o.hdr ↔ o.hdr = last)

/-- What a sequence of calls recovers where the global decides: the header of the last call that set it, or the one it held. -/
structure RecoversLastHeader (v : CacheVariant CacheGlobals) (glb : CacheGlobals) (calls : List CacheCall) : Prop where
  only : RecoversOnly v glb calls ((lastCached calls).getD glb.glbPtr)
  all_iff : RecoversHeader v glb calls ↔
    ∀ call ∈ calls, ∀ hdr, call.header = some hdr → hdr = (lastCached calls).getD glb.glbPtr

namespace CacheHeaderAux

/-- A variant that leaves the headers of the two functions in two globals, and recovers the one of the second. -/
structure ByGlobal (v : CacheVariant CacheGlobals) : Prop where
  cacheConst : ∀ glb hdr, (v.cacheConst glb hdr).1 = { glb with glbConstPtr := hdr }
  cache : ∀ glb hdr, (v.cache glb hdr).1 = { glb with glbPtr := hdr }
  hdrConst : ∀ glb c, v.hdrConst glb c = glb.glbPtr
  hdr : ∀ glb c, v.hdr glb c = glb.glbPtr

/-- A variant that recovers the header from the pointer. -/
structure ByPointer {S : Type} (v : CacheVariant S) : Prop where
  cacheConst : ∀ glb glb' hdr, v.hdrConst glb' (v.cacheConst glb hdr).2 = hdr ∧ v.hdr glb' (v.cacheConst glb hdr).2 = hdr
  cache : ∀ glb glb' hdr, v.hdrConst glb' (v.cache glb hdr).2 = hdr ∧ v.hdr glb' (v.cache glb hdr).2 = hdr

theorem seahorn_byGlobal (cacheOf : Ulong → Ulong) : ByGlobal (mcacheSeahorn cacheOf) ∧ ByGlobal (dcacheSeahorn cacheOf) :=
  ⟨⟨fun _ _ => rfl, fun _ _ => rfl, fun _ _ => rfl, fun _ _ => rfl⟩,
    ⟨fun _ _ => rfl, fun _ _ => rfl, fun _ _ => rfl, fun _ _ => rfl⟩⟩

theorem pointer_byPointer (sizeofHdr : Ulong) : ByPointer (mcachePointer sizeofHdr) ∧ ByPointer (dcachePointer sizeofHdr) := by
  have hback : ∀ hdr : Ulong, Pointer.privateHdr sizeofHdr (Pointer.privateCache sizeofHdr hdr) = hdr :=
    fun hdr => BitVec.add_sub_cancel hdr sizeofHdr
  exact ⟨⟨fun _ _ hdr => ⟨hback hdr, hback hdr⟩, fun _ _ hdr => ⟨hback hdr, hback hdr⟩⟩,
    ⟨fun _ _ hdr => ⟨hback hdr, hback hdr⟩, fun _ _ hdr => ⟨hback hdr, hback hdr⟩⟩⟩

section Global

variable {v : CacheVariant CacheGlobals} (hv : ByGlobal v)
include hv

/-- The global after a call. -/
theorem glbPtr_step (s : CacheSys CacheGlobals) (call : CacheCall) :
    (cacheStep v s call).glb.glbPtr = call.cached.getD s.glb.glbPtr := by
  cases call with
  | cacheConst hdr =>
    show (v.cacheConst s.glb hdr).1.glbPtr = s.glb.glbPtr
    rw [hv.cacheConst]
  | cache hdr =>
    show (v.cache s.glb hdr).1.glbPtr = hdr
    rw [hv.cache]
  | hdrConst c => rfl
  | hdr c => rfl

/-- The global after a sequence of calls. -/
theorem glbPtr_calls (calls : List CacheCall) :
    ∀ s, (cacheCalls v s calls).glb.glbPtr = (lastCached calls).getD s.glb.glbPtr := by
  induction calls with
  | nil => intro s; rfl
  | cons call calls ih =>
    intro s
    have hstep : cacheCalls v s (call :: calls) = cacheCalls v (cacheStep v s call) calls := rfl
    rw [hstep, ih, lastCached, glbPtr_step hv]
    cases lastCached calls <;> rfl

end Global

/-! ## The pointers obtained -/

section Obtained

variable {S : Type} {v : CacheVariant S}

/-- The headers that pointers were obtained from are those of the calls. -/
theorem obtained_hdrs (calls : List CacheCall) :
    ∀ s, (cacheCalls v s calls).obtained.map (·.hdr) = (calls.filterMap CacheCall.header).reverse ++ s.obtained.map (·.hdr) := by
  induction calls with
  | nil => exact fun s => rfl
  | cons call calls ih =>
    intro s
    have hstep : cacheCalls v s (call :: calls) = cacheCalls v (cacheStep v s call) calls := rfl
    rw [hstep, ih]
    cases call with
    | cacheConst hdr => exact (List.append_cons ..).trans (congrArg (· ++ _) List.reverse_cons.symm)
    | cache hdr => exact (List.append_cons ..).trans (congrArg (· ++ _) List.reverse_cons.symm)
    | hdrConst c => rfl
    | hdr c => rfl

/-- What holds of the header of every pointer obtained. -/
theorem forall_obtained_iff (calls : List CacheCall) (glb : S) (P : Ulong → Prop) :
    (∀ o ∈ (cacheCalls v ⟨glb, []⟩ calls).obtained, P o.hdr) ↔ ∀ call ∈ calls, ∀ hdr, call.header = some hdr → P hdr := by
  have hmap := obtained_hdrs (v := v) calls ⟨glb, []⟩
  rw [List.map_nil, List.append_nil] at hmap
  have hall : (∀ o ∈ (cacheCalls v ⟨glb, []⟩ calls).obtained, P o.hdr) ↔
      ∀ hdr ∈ (cacheCalls v ⟨glb, []⟩ calls).obtained.map (·.hdr), P hdr := List.forall_mem_map.symm
  rw [hall, hmap]
  constructor
  · intro h call hcall hdr hhdr
    exact h hdr (List.mem_reverse.2 (List.mem_filterMap.2 ⟨call, hcall, hhdr⟩))
  · intro h hdr hmem
    obtain ⟨call, hcall, hhdr⟩ := List.mem_filterMap.1 (List.mem_reverse.1 hmem)
    exact h call hcall hdr hhdr

/-- By pointer, every pointer obtained gives its header back. -/
theorem recovers_of_byPointer (hv : ByPointer v) (calls : List CacheCall) :
    ∀ s, (∀ o ∈ s.obtained, ∀ glb, v.hdrConst glb o.cache = o.hdr ∧ v.hdr glb o.cache = o.hdr) →
      ∀ o ∈ (cacheCalls v s calls).obtained, ∀ glb, v.hdrConst glb o.cache = o.hdr ∧ v.hdr glb o.cache = o.hdr := by
  induction calls with
  | nil => exact fun s h => h
  | cons call calls ih =>
    intro s h
    refine ih (cacheStep v s call) ?_
    cases call with
    | cacheConst hdr => exact List.forall_mem_cons.2 ⟨fun glb => hv.cacheConst s.glb glb hdr, h⟩
    | cache hdr => exact List.forall_mem_cons.2 ⟨fun glb => hv.cache s.glb glb hdr, h⟩
    | hdrConst c => exact h
    | hdr c => exact h

end Obtained

/-- By global, it is the pointers of the last header that do. -/
theorem recoversLast_of_byGlobal {v : CacheVariant CacheGlobals} (hv : ByGlobal v) (glb : CacheGlobals)
    (calls : List CacheCall) : RecoversLastHeader v glb calls := by
  have hglb : (cacheCalls v ⟨glb, []⟩ calls).glb.glbPtr = (lastCached calls).getD glb.glbPtr := glbPtr_calls hv calls _
  have honly : RecoversOnly v glb calls ((lastCached calls).getD glb.glbPtr) := by
    intro o _
    rw [hv.hdrConst, hv.hdr, hglb]
    exact ⟨eq_comm, eq_comm⟩
  refine ⟨honly, ?_⟩
  rw [← forall_obtained_iff (v := v) calls glb]
  constructor
  · exact fun h o ho => (honly o ho).1.1 (h o ho).1
  · exact fun h o ho => ⟨(honly o ho).1.2 (h o ho), (honly o ho).2.2 (h o ho)⟩

end CacheHeaderAux

open CacheHeaderAux

/-- After every sequence of calls, over any number of headers, the variants by pointer recover the header of each pointer
obtained. The ones under `__SEAHORN__` do so of the pointers of the header last cached only, so of all of them exactly when every
call that obtained one was for that header. -/
theorem cacheHdr_recovers (metaOf dataOf : Ulong → Ulong) (sizeofMcacheHdr sizeofDcacheHdr : Ulong) (glb : CacheGlobals)
    (calls : List CacheCall) :
    (RecoversHeader (mcachePointer sizeofMcacheHdr) () calls ∧ RecoversLastHeader (mcacheSeahorn metaOf) glb calls) ∧
      RecoversHeader (dcachePointer sizeofDcacheHdr) () calls ∧ RecoversLastHeader (dcacheSeahorn dataOf) glb calls := by
  have hmcache := (pointer_byPointer sizeofMcacheHdr).1
  have hdcache := (pointer_byPointer sizeofDcacheHdr).2
  refine ⟨⟨?_, recoversLast_of_byGlobal (seahorn_byGlobal metaOf).1 glb calls⟩, ?_,
    recoversLast_of_byGlobal (seahorn_byGlobal dataOf).2 glb calls⟩
  · exact fun o ho => recovers_of_byPointer hmcache calls ⟨(), []⟩ (fun o ho => nomatch ho) o ho _
  · exact fun o ho => recovers_of_byPointer hdcache calls ⟨(), []⟩ (fun o ho => nomatch ho) o ho _

/-- Under `__SEAHORN__`, neither of an mcache nor of a dcache is the first of two headers recovered, nor that of a pointer
obtained with const alone. -/
theorem cacheHdr_two_headers :
    (¬RecoversHeader (mcacheSeahorn fun hdr => hdr + 128) ⟨0, 0⟩ [.cache 0x1000, .cache 0x2000] ∧
      ¬RecoversHeader (dcacheSeahorn fun hdr => hdr + 128) ⟨0, 0⟩ [.cache 0x1000, .cache 0x2000]) ∧
    ¬RecoversHeader (mcacheSeahorn fun hdr => hdr + 128) ⟨0, 0⟩ [.cacheConst 0x1000] ∧
      ¬RecoversHeader (dcacheSeahorn fun hdr => hdr + 128) ⟨0, 0⟩ [.cacheConst 0x1000] := by
  have hfirst : (⟨false, 0x1000, 0x1080⟩ : ObtainedCache) ∈
      [(⟨false, 0x2000, 0x2080⟩ : ObtainedCache), ⟨false, 0x1000, 0x1080⟩] := by decide
  have hconst : (⟨true, 0x1000, 0x1080⟩ : ObtainedCache) ∈ [(⟨true, 0x1000, 0x1080⟩ : ObtainedCache)] := by decide
  refine ⟨⟨?_, ?_⟩, ?_, ?_⟩
  · exact fun h => absurd (h _ hfirst).1 (by decide)
  · exact fun h => absurd (h _ hfirst).1 (by decide)
  · exact fun h => absurd (h _ hconst).1 (by decide)
  · exact fun h => absurd (h _ hconst).1 (by decide)

end VerifyFiredancer
