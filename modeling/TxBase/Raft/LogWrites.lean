import TxBase.Raft.LogReplay
import TxBase.Raft.LogStore

/-! What the writes of the store leave in its directory, whichever of them fail and wherever they
stop. -/
namespace TxBase.Raft
open Lib List
open Procedure (Event Ensures forEach attempt)
open JournalSerde (digest toVec digest_length)
open Function (update update_self update_of_ne update_eq_self update_apply)
open Frames (Log)

variable {P V : Type} {record : JournalRecord P V}
  {permitted : Event FileOp Directory IoError → Prop}
  {dir next : Directory} {file : File} {content bytes more : Bytes}
  {records : List (JournalRecord P V)}

section Framing
variable [JournalSerde P V]

/-- `serde_json` reads the record back. -/
def ReadsBack (record : JournalRecord P V) : Prop :=
  ∀ payload, toVec record = .ok payload → JournalSerde.fromSlice payload = .ok record

variable (P V) in
def frame (payload : Bytes) : Bytes :=
  toLeBytes 4 payload.length ++ (digest P V payload ++ payload)

theorem frame_length (payload : Bytes) :
    (frame P V payload).length = frameHeaderBytes + payload.length := by
  simp only [frame, length_append, toLeBytes_length, digest_length, frameHeaderBytes]
  omega

variable {payload : Bytes}

theorem encodePayload_eq_ok (h : encodePayload record = .ok payload) :
    toVec record = .ok payload ∧
      0 < payload.length ∧ payload.length ≤ maxRecordBytes ∧ payload.length < u32Size := by
  unfold encodePayload at h
  cases htoVec : (toVec record : Except String Bytes) with
  | error message =>
    rw [htoVec] at h
    cases h
  | ok written =>
    rw [htoVec] at h
    change (if (written.isEmpty || maxRecordBytes < written.length) = true then _ else _) = _ at h
    split at h
    · cases h
    · rename_i hsize
      split at h
      · cases h
      · rename_i hroom
        cases h
        simp only [Bool.or_eq_true, List.isEmpty_iff, decide_eq_true_eq, not_or] at hsize
        exact ⟨rfl, List.length_pos_iff.mpr hsize.1, Nat.not_lt.mp hsize.2, Nat.not_le.mp hroom⟩

theorem frameLength {length : Nat} (h : length < u32Size) (rest : Bytes) :
    fromLeBytes (slice (toLeBytes 4 length ++ rest) 0 4) = length :=
  fromLeBytes_slice 4 [] (prefix_append _ rest) rfl rfl h

theorem isFrame_frame (hreads : ReadsBack record) (h : encodePayload record = .ok payload) :
    Frames.IsFrame recordHead record (frame P V payload) := by
  obtain ⟨hpayload, hpos, hmax, hroom⟩ := encodePayload_eq_ok h
  have hlength : (frame P V payload).length = _ := frame_length payload
  have hdigest : (digest P V payload).length = 32 := digest_length payload
  have hsizes : ¬ (decide (payload.length = 0) || decide (maxRecordBytes < payload.length)) =
      true := by
    simp only [Bool.or_eq_true, decide_eq_true_eq]
    omega
  refine ⟨ne_nil_of_length_pos (by rw [hlength]; omega), fun rest => ?_, fun count hcount => ?_⟩
  · have hwhole : frameHeaderBytes + payload.length ≤ (frame P V payload ++ rest).length := by
      rw [length_append, hlength]
      omega
    have hchecksum : slice (frame P V payload ++ rest) 4 frameHeaderBytes =
        digest P V payload :=
      slice_of_eq (toLeBytes 4 payload.length) (by simp only [frame, append_assoc]; rfl)
        (toLeBytes_length _ _) (by rw [hdigest]; rfl)
    have hslice : slice (frame P V payload ++ rest) frameHeaderBytes
        (frameHeaderBytes + payload.length) = payload :=
      slice_of_eq (toLeBytes 4 payload.length ++ digest P V payload)
        (by simp only [frame, append_assoc]; rfl)
        (by rw [length_append, toLeBytes_length, hdigest]; rfl) rfl
    have hread : fromLeBytes (slice (frame P V payload ++ rest) 0 4) = payload.length := by
      rw [frame, append_assoc]
      exact frameLength hroom _
    have hfour : ¬ (frame P V payload ++ rest).length < 4 := by
      unfold frameHeaderBytes at hwhole
      omega
    simp only [recordHead, if_neg hfour, hread, if_neg hsizes,
      if_neg (Nat.not_lt.mpr hwhole), hslice,
      hchecksum, ne_eq, not_true_eq_false, if_false, hreads payload hpayload, hlength]
  · have htaken : ((frame P V payload).take count).length = count := by
      rw [length_take]
      omega
    unfold recordHead
    by_cases hfour : count < 4
    · rw [htaken, if_pos hfour]
    · have hread : fromLeBytes (slice ((frame P V payload).take count) 0 4) = payload.length := by
        rw [frame, take_append, toLeBytes_length,
          take_of_length_le (by rw [toLeBytes_length]; omega)]
        exact frameLength hroom _
      simp only [htaken, if_neg hfour, hread, if_neg hsizes]
      rw [if_pos (by omega)]

end Framing

theorem Directory.get_set (dir : Directory) (file : File) (content : Bytes) :
    (dir.set file content).get = update dir.get file (some content) := by
  funext other
  rw [update_apply]
  cases file with
  | journal gen =>
    cases other with
    | journal other => simp only [Directory.set, Directory.get, OrderedMap.get?_insert,
      File.journal.injEq]
    | temporary other => rw [if_neg (by simp)]; rfl
  | temporary gen =>
    cases other with
    | journal other => rw [if_neg (by simp)]; rfl
    | temporary other =>
      simp only [Directory.set, Directory.get, OrderedMap.get?_insert, File.temporary.injEq]

theorem Directory.get_remove (dir : Directory) (file : File) :
    (dir.remove file).get = update dir.get file none := by
  funext other
  rw [update_apply]
  cases file with
  | journal gen =>
    cases other with
    | journal other => simp only [Directory.remove, Directory.get, OrderedMap.get?_erase,
      File.journal.injEq]
    | temporary other => rw [if_neg (by simp)]; rfl
  | temporary gen =>
    cases other with
    | journal other => rw [if_neg (by simp)]; rfl
    | temporary other =>
      simp only [Directory.remove, Directory.get, OrderedMap.get?_erase, File.temporary.injEq]

/-- The files, with this content in one of them. -/
def Directory.With (directory : Directory) (file : File) (content : Bytes)
    (next : Directory) : Prop :=
  next.get = update directory.get file (some content)

theorem Directory.With.refl (h : dir.get file = some content) : dir.With file content dir := by
  rw [Directory.With, ← h, update_eq_self]

theorem Directory.With.get (h : dir.With file content next) : next.get file = some content := by
  rw [h, update_self]

theorem Directory.With.trans {last : Directory} (h : dir.With file content next)
    (hlast : next.With file more last) : dir.With file more last := by
  rw [Directory.With] at h hlast ⊢
  rw [hlast, h, Function.update_idem]

theorem exec_write {byte : UInt8} (h : dir.get file = some content) :
    exec (.write file byte) dir = (.ok (), dir.set file (content ++ [byte])) := by
  simp only [exec, h]

theorem writeAll_ensures (bytes : Bytes) (h : dir.get file = some content) :
    Ensures exec permitted (fun next => ∃ count, dir.With file (content ++ bytes.take count) next)
      (writeAll file bytes) dir (fun _ next => dir.With file (content ++ bytes) next)
      fun _ _ => ∃ event, permitted event := by
  unfold writeAll
  refine .mono (.forEach (fun rest next => ∃ written, bytes = written ++ rest ∧
    dir.With file (content ++ written) next) ?_ ⟨0, ?_⟩ ⟨[], rfl, ?_⟩) ?_
    fun _ _ _ hfails => hfails
  · rintro byte rest next hinv ⟨written, hwritten, hnext⟩
    have hset : dir.With file (content ++ (written ++ [byte]))
        (next.set file (content ++ written ++ [byte])) := by
      rw [← append_assoc]
      exact hnext.trans (Directory.get_set _ _ _)
    refine .pass (exec_write hnext.get) hinv ⟨written.length + 1, ?_⟩
      ⟨written ++ [byte], by rw [hwritten, append_assoc]; rfl, hset⟩
      fun event _ _ hpermitted _ => ⟨event, hpermitted⟩
    have htake : bytes.take (written.length + 1) = written ++ [byte] := by
      rw [hwritten, take_append, take_of_length_le (by omega)]
      simp
    rwa [htake]
  · rw [take_zero, append_nil]
    exact .refl h
  · rw [append_nil]
    exact .refl h
  · rintro - next - ⟨written, hwritten, hnext⟩
    rw [append_nil] at hwritten
    rwa [hwritten]

theorem writeAll_append (file : File) (left right : Bytes) :
    writeAll file (left ++ right) = (do writeAll file left; writeAll file right) :=
  Procedure.forEach_append left right _

section Records
variable [JournalSerde P V]

def Part (records : List (JournalRecord P V)) (bytes : Bytes) : Prop :=
  ∃ kept whole tail, bytes = whole ++ tail ∧ Log recordHead (records.take kept) whole ∧
    Frames.Torn (recordHead (P := P) (V := V)) tail

theorem part_nil (records : List (JournalRecord P V)) : Part records [] :=
  ⟨0, [], [], rfl, .nil, Frames.torn_nil⟩

variable {right left : List (JournalRecord P V)}

theorem part_append (h : Log recordHead left bytes) (hmore : Part right more) :
    Part (left ++ right) (bytes ++ more) := by
  obtain ⟨kept, whole, tail, rfl, hwhole, htail⟩ := hmore
  refine ⟨left.length + kept, bytes ++ whole, tail, (append_assoc _ _ _).symm, ?_, htail⟩
  rw [take_length_add_append]
  exact h.append hwhole

theorem part_of_append (h : Part left bytes) : Part (left ++ right) bytes := by
  obtain ⟨kept, whole, tail, rfl, hwhole, htail⟩ := h
  refine ⟨min kept left.length, whole, tail, rfl, ?_, htail⟩
  rw [take_append_of_le_length (Nat.min_le_right _ _), ← take_take, take_length]
  exact hwhole

/-- Why a write of records fails: an operation does, or a record is beyond its limits. -/
def WriteFails (permitted : Event FileOp Directory IoError → Prop)
    (records : List (JournalRecord P V)) :
    Prop :=
  (∃ event, permitted event) ∨ ∃ record ∈ records, ∃ error, encodePayload record = .error error

theorem writeRecord_ensures (hreads : ReadsBack record) (h : dir.get file = some content) :
    Ensures exec permitted
      (fun next => ∃ bytes, Part [record] bytes ∧ dir.With file (content ++ bytes) next)
      (writeRecord file record) dir
      (fun _ next => ∃ bytes, Log recordHead [record] bytes ∧
        dir.With file (content ++ bytes) next) fun _ _ => WriteFails permitted [record] := by
  have hstart : dir.With file (content ++ []) dir := by
    rw [append_nil]
    exact .refl h
  cases hpayload : encodePayload record with
  | error error =>
    rw [writeRecord, hpayload]
    exact ⟨⟨[], part_nil _, hstart⟩, .inr ⟨record, mem_singleton_self _, error, hpayload⟩⟩
  | ok payload =>
    rw [writeRecord, hpayload, Procedure.ofExcept_ok_bind, ← writeAll_append, ← writeAll_append]
    have hlog := Frames.Log.single (isFrame_frame hreads hpayload)
    refine ((writeAll_ensures _ h).weaken ?_).mono ?_ fun _ _ _ => .inl
    · rintro next ⟨count, hnext⟩
      obtain ⟨whole, tail, kept, htake, hwhole, htail⟩ := hlog.take count
      exact ⟨_, ⟨kept, whole, tail, htake, hwhole, htail⟩, hnext⟩
    · exact fun _ next _ hnext => ⟨_, hlog, hnext⟩

theorem writeRecords_ensures (hreads : ∀ record ∈ records, ReadsBack record)
    (h : dir.get file = some content) :
    Ensures exec permitted
      (fun next => ∃ bytes, Part records bytes ∧ dir.With file (content ++ bytes) next)
      (forEach records fun record => writeRecord file record) dir
      (fun _ next => ∃ bytes, Log recordHead records bytes ∧
        dir.With file (content ++ bytes) next) fun _ _ => WriteFails permitted records := by
  have hstart : dir.With file (content ++ []) dir := by
    rw [append_nil]
    exact .refl h
  refine .mono (.forEach (fun rest next => ∃ written bytes, records = written ++ rest ∧
    Log recordHead written bytes ∧ dir.With file (content ++ bytes) next) ?_
    ⟨[], part_nil _, hstart⟩ ⟨[], [], rfl, .nil, hstart⟩) ?_ fun _ _ _ hfails => hfails
  · rintro record rest next - ⟨written, bytes, hwritten, hlog, hnext⟩
    have hwrite : Ensures exec permitted _ (writeRecord file record) next _ _ :=
      writeRecord_ensures (hreads record (by rw [hwritten]; simp)) hnext.get
    refine (hwrite.weaken ?_).mono ?_ ?_
    · rintro last ⟨more, hmore, hlast⟩
      refine ⟨bytes ++ more, ?_, ?_⟩
      · rw [hwritten, show written ++ record :: rest = written ++ [record] ++ rest by simp]
        exact part_of_append (part_append hlog hmore)
      · rw [← append_assoc]
        exact hnext.trans hlast
    · rintro - last - ⟨more, hmore, hlast⟩
      refine ⟨written ++ [record], bytes ++ more, by simp [hwritten], hlog.append hmore, ?_⟩
      rw [← append_assoc]
      exact hnext.trans hlast
    · rintro - last - (hevent | ⟨other, hother, hfails⟩)
      · exact .inl hevent
      · rw [mem_singleton.mp hother] at hfails
        exact .inr ⟨record, by rw [hwritten]; simp, hfails⟩
  · rintro - next - ⟨written, bytes, hwritten, hlog, hnext⟩
    rw [append_nil] at hwritten
    exact ⟨bytes, hwritten ▸ hlog, hnext⟩

end Records

section Store
variable [JournalSerde P V] {store : StoreInner P V}

/-- The rollback of a failed write is not itself left undone. -/
def RollsBack (event : Event FileOp Directory IoError) : Prop :=
  ∀ file length error, event.op = .setLen file length → event.happening ≠ .failed error false

theorem resized_append (content more : Bytes) :
    resized (content ++ more) content.length = content := by
  simp [resized]

theorem rollback_ensures (h : dir.get file = some content)
    (hnext : dir.With file (content ++ more) next) :
    Ensures exec RollsBack
      (fun last => last.get = next.get ∨ last.get = dir.get)
      (attempt (do io (.setLen file content.length); io (.syncAll file)) :
        Storing (Except IoError Unit)) next
      (fun _ last => last.get = dir.get) fun _ _ => False := by
  have hexec : exec (.setLen file content.length) next =
      (.ok (), next.set file (resized (content ++ more) content.length)) := by
    simp only [exec, hnext.get]
  have hset : (next.set file (resized (content ++ more) content.length)).get = dir.get := by
    have hwith := hnext.trans (Directory.get_set next file content)
    rw [Directory.With, ← h, update_eq_self] at hwith
    rw [resized_append, hwith]
  refine .attempt (.bind (.bind (.ask (.inl rfl) ?_ ?_)))
  · rw [hexec]
    have hsync : Ensures exec RollsBack (fun last => last.get = dir.get) (io (.syncAll file))
        (next.set file (resized (content ++ more) content.length))
        (fun _ last => last.get = dir.get) fun _ last => last.get = dir.get :=
      .pass rfl hset hset hset fun _ _ _ _ hlast => hlast
    exact ⟨.inr hset, .inr hset, hsync.weaken fun _ => .inr⟩
  · intro error effect hpermitted
    cases effect with
    | false => exact absurd rfl (hpermitted _ _ error rfl)
    | true =>
      have hlast : (Procedure.after exec (.setLen file content.length) next
        (.failed error true)).2.get =
          dir.get := by
        show (exec (.setLen file content.length) next).2.get = _
        rw [hexec]
        exact hset
      exact ⟨.inr hlast, .inr hlast, hlast⟩

theorem prepare_ensures (h : dir.get file = some content) :
    Ensures exec RollsBack (fun next => next.get = dir.get)
      (attempt (do let length ← io (.length file); io (.seekEnd file); .done length) :
        Storing (Except IoError Nat)) dir
      (fun result next => next.get = dir.get ∧ ∀ length, result = .ok length →
        length = content.length)
      fun _ _ => False := by
  have hlength : exec (.length file) dir = (.ok content.length, dir) := by
    simp only [exec, h]
  refine .attempt (.bind (.pass hlength rfl rfl ?_ ?_))
  · refine .bind (.pass rfl rfl rfl ⟨rfl, rfl, fun length heq => ?_⟩ ?_)
    · exact (Except.ok.inj heq).symm
    · exact fun _ _ _ _ hlast => ⟨hlast, nofun⟩
  · exact fun _ _ _ _ hlast => ⟨hlast, nofun⟩

theorem writeSynced_ensures (hreads : ∀ record ∈ records, ReadsBack record)
    (h : dir.get file = some content) :
    Ensures exec RollsBack
      (fun next => ∃ bytes, Part records bytes ∧ dir.With file (content ++ bytes) next)
      (attempt (do
        forEach records fun record => writeRecord file record
        io (.syncAll file)) : Storing (Except IoError Unit)) dir
      (fun result next => (result = .ok () ∧ ∃ bytes, Log recordHead records bytes ∧
          dir.With file (content ++ bytes) next) ∨ ∃ error, result = .error error)
      fun _ _ => False := by
  refine .attempt (.bind ((writeRecords_ensures hreads h).mono ?_ ?_))
  · rintro - next hinv hnext
    exact .pass rfl hinv hinv (.inl ⟨rfl, hnext⟩) fun _ error _ _ _ => .inr ⟨error, rfl⟩
  · exact fun error _ _ _ => .inr ⟨error, rfl⟩

theorem persistRecords_ensures (hreads : ∀ record ∈ records, ReadsBack record)
    (h : store.poisoned = false → dir.get (.journal store.generation) = some content) :
    Ensures exec RollsBack
      (fun next => next.get = dir.get ∨ store.poisoned = false ∧ ∃ bytes, Part records bytes ∧
        dir.With (.journal store.generation) (content ++ bytes) next)
      (store.persistRecords records) dir
      (fun returned next => returned = (store, .ok ()) ∧ store.poisoned = false ∧
          (∃ bytes, Log recordHead records bytes ∧
            dir.With (.journal store.generation) (content ++ bytes) next) ∨
        (∃ error, returned.2 = .error error) ∧ next.get = dir.get ∧
          (returned.1 = store ∨ returned.1 = { store with poisoned := true }))
      fun _ _ => False := by
  unfold StoreInner.persistRecords
  cases hpoisoned : store.poisoned with
  | true => exact ⟨.inl rfl, .inr ⟨⟨_, rfl⟩, rfl, .inl rfl⟩⟩
  | false =>
    have hcontent := h hpoisoned
    generalize File.journal store.generation = journal at hcontent ⊢
    rw [if_neg Bool.false_ne_true]
    refine ((prepare_ensures hcontent).weaken fun _ => .inl).then ?_
    rintro prepared next - ⟨hnext, hlength⟩
    cases prepared with
    | error error => exact ⟨.inl hnext, .inr ⟨⟨_, rfl⟩, hnext, .inl rfl⟩⟩
    | ok length =>
      rw [hlength length rfl]
      have hsame : ∀ {bytes last}, next.With journal bytes last → dir.With journal bytes last := by
        intro bytes last hlast
        rwa [Directory.With, hnext] at hlast
      refine ((writeSynced_ensures hreads (by rw [hnext]; exact hcontent)).weaken
        fun last hlast => ?_).then ?_
      · obtain ⟨bytes, hpart, hlast⟩ := hlast
        exact .inr ⟨rfl, bytes, hpart, hsame hlast⟩
      · rintro result last hinv hresult
        rcases hresult with ⟨rfl, bytes, hlog, hlast⟩ | ⟨error, rfl⟩
        · exact ⟨hinv, .inl ⟨rfl, rfl, bytes, hlog, hsame hlast⟩⟩
        · -- the bytes that were written are taken back
          obtain ⟨bytes, hlast⟩ : ∃ bytes, dir.With journal (content ++ bytes) last := by
            rcases hinv with hlast | ⟨-, bytes, -, hlast⟩
            · refine ⟨[], ?_⟩
              rw [Directory.With, append_nil, ← hcontent, update_eq_self, hlast]
            · exact ⟨bytes, hlast⟩
          refine ((rollback_ensures hcontent hlast).weaken fun final hfinal => ?_).then ?_
          · rcases hfinal with hfinal | hfinal
            · simpa only [Directory.With, hfinal] using hinv
            · exact .inl hfinal
          · rintro rollback final hfinal hrestored
            cases rollback with
            | ok => exact ⟨hfinal, .inr ⟨⟨_, rfl⟩, hrestored, .inl rfl⟩⟩
            | error rollbackError => exact ⟨hfinal, .inr ⟨⟨_, rfl⟩, hrestored, .inr rfl⟩⟩

end Store

section Generations
variable {gen : Nat} [JournalSerde P V]

def Directory.journal (directory : Directory) : Nat → Option Bytes :=
  fun generation => directory.get (.journal generation)

theorem Directory.With.journal_temporary (h : dir.With (.temporary gen) content next) :
    next.journal = dir.journal := by
  funext other
  rw [Directory.journal, h]
  rfl

def Filled (directory : Directory) (generation : Nat) (records : List (JournalRecord P V))
    (next : Directory) : Prop :=
  ∃ bytes, Log recordHead records bytes ∧
    next.journal = update directory.journal generation (some (journalMagic ++ bytes))

theorem exec_rename (hlog : Log recordHead records bytes)
    (h : dir.With (.temporary gen) (journalMagic ++ bytes) next) :
    ∃ last, exec (.rename (.temporary gen) (.journal gen)) next = (.ok (), last) ∧
      Filled dir gen records last := by
  refine ⟨(next.set (.journal gen) (journalMagic ++ bytes)).remove (.temporary gen), ?_,
    bytes, hlog, ?_⟩
  · simp only [exec, h.get]
  · funext other
    rw [Directory.journal, Directory.get_remove, update_of_ne (by simp), Directory.get_set,
      ← h.journal_temporary]
    by_cases heq : other = gen
    · rw [heq, update_self, update_self]
    · rw [update_of_ne (by simpa using heq), update_of_ne heq]
      rfl

theorem fillGeneration_ensures {created : Directory} (hreads : ∀ record ∈ records, ReadsBack record)
    (hcreate : dir.With (.temporary gen) [] created) :
    Ensures exec permitted
      (fun next => next.journal = dir.journal ∨ Filled dir gen records next)
      (attempt (do
        writeAll (.temporary gen) journalMagic
        forEach records fun record => writeRecord (.temporary gen) record
        io (.syncAll (.temporary gen))
        io (.rename (.temporary gen) (.journal gen))
        io .syncDirectory) : Storing (Except IoError Unit)) created
      (fun result next => result = .ok () ∧ Filled dir gen records next ∨
        (∃ error, result = .error error) ∧ WriteFails permitted records) fun _ _ => False := by
  have hfails : ∀ {event error}, permitted event → ∀ {next : Directory},
      (.error error = Except.ok () ∧ Filled dir gen records next ∨
        (∃ other, .error error = (.error other : Except IoError Unit)) ∧
          WriteFails permitted records) :=
    fun hpermitted _ => .inr ⟨⟨_, rfl⟩, .inl ⟨_, hpermitted⟩⟩
  refine .attempt (.bind (((writeAll_ensures journalMagic hcreate.get).weaken ?_).mono ?_ ?_))
  · rintro next ⟨count, hnext⟩
    exact .inl (hcreate.trans hnext).journal_temporary
  · intro _ started _ hstarted
    have hstarted := hcreate.trans hstarted
    refine .bind (((writeRecords_ensures hreads hstarted.get).weaken ?_).mono ?_ ?_)
    · rintro next ⟨bytes, -, hnext⟩
      exact .inl (hstarted.trans hnext).journal_temporary
    · rintro - written hunchanged ⟨bytes, hlog, hwritten⟩
      have hwritten := hstarted.trans hwritten
      obtain ⟨last, hexec, hfilled⟩ := exec_rename hlog hwritten
      refine .bind (.pass rfl hunchanged hunchanged ?_ fun _ _ _ hpermitted _ =>
        hfails hpermitted)
      refine .bind (.pass hexec hunchanged (.inr hfilled) ?_ fun _ _ _ hpermitted _ =>
        hfails hpermitted)
      exact .pass rfl (.inr hfilled) (.inr hfilled) (.inl ⟨rfl, hfilled⟩)
        fun _ _ _ hpermitted _ => hfails hpermitted
    · exact fun error _ _ hwrite => .inr ⟨⟨error, rfl⟩, hwrite⟩
  · exact fun error _ _ hevent => .inr ⟨⟨error, rfl⟩, .inl hevent⟩

theorem createGeneration_ensures (records : List (JournalRecord P V))
    (hreads : ∀ record ∈ records, ReadsBack record) :
    Ensures exec permitted
      (fun next => next.journal = dir.journal ∨ Filled dir gen records next)
      (createGeneration gen
        (forEach records fun record => writeRecord (.temporary gen) record)) dir
      (fun _ next => Filled dir gen records next)
      fun _ _ => WriteFails permitted records := by
  have hcreate : dir.With (.temporary gen) []
      (dir.set (.temporary gen) []) := Directory.get_set _ _ _
  refine .bind (.pass rfl (.inl rfl) (.inl hcreate.journal_temporary) ?_
    fun event _ _ hpermitted _ => .inl ⟨event, hpermitted⟩)
  refine .bind ((fillGeneration_ensures hreads hcreate).mono ?_ fun _ _ _ => False.elim)
  rintro result next hinv (⟨rfl, hfilled⟩ | ⟨⟨error, rfl⟩, hfails⟩)
  · exact ⟨hinv, hfilled⟩
  · have hremoved : (next.remove (.temporary gen)).journal = dir.journal ∨
        Filled dir gen records (next.remove (.temporary gen)) := by
      exact hinv
    refine .bind (.ask hinv ⟨hremoved, hremoved, hfails⟩ fun _ effect _ => ?_)
    cases effect with
    | false => exact ⟨hinv, hinv, hfails⟩
    | true => exact ⟨hremoved, hremoved, hfails⟩

end Generations

end TxBase.Raft
