import CrustSworker.ByteText

/-!
# Parameters and status codes of the enclave

The constants of `Parameter.h` and the codes of `CrustStatus.h` that the modelled
functions use. `host` stands for any further code an ocall may answer.
-/

namespace CrustSworker

inductive CrustStatus where
  | success
  | blockHeightExpired
  | firstWorkReportAfterReport
  | workReportNotValidated
  | noKarst
  | mallocFailed
  | sealDataFailed
  | badSealData
  | invalidMetaData
  | sgxSignFailed
  | sgxVerifySigFailed
  | unexpectedError
  | invalidMerkletree
  | fileNumberExceed
  | storageUnexpectedFileBlock
  | storageNewFileSizeError
  | validateKarstOffline
  | upgradeRestoreSrdFailed
  | upgradeWaitForNextEra
  | upgradeBadSrd
  | upgradeBadFile
  | upgradeNeedLeftData
  | upgradeGetBlockHashFailed
  | upgradeGenWorkreportFailed
  | upgradeBlockExpire
  | upgradeNoValidate
  | upgradeRestart
  | upgradeNoFile
  | host (code : Nat)
  deriving DecidableEq, Repr

/-- `sgx_status_t`; `host` is any code that is not named here. -/
inductive SgxStatus where
  | success
  | unexpected
  | deviceBusy
  | serviceTimeout
  | host (code : Nat)
  deriving DecidableEq, Repr

inductive EncUpgradeStatus where
  | none
  | process
  | success
  deriving DecidableEq, Repr

/-! ### File entries -/

def fileHash : Bytes := str "hash"
def fileSize : Bytes := str "size"
def fileOldSize : Bytes := str "old_size"
def fileOldHash : Bytes := str "old_hash"
def fileBlockNum : Bytes := str "block_num"
def fileStatus : Bytes := str "status"

-- `FILE_STATUS_*`: the characters `'0'` to `'3'`.
def statusUnconfirmed : UInt8 := 48
def statusValid : UInt8 := 49
def statusLost : UInt8 := 50
def statusDeleted : UInt8 := 51

def currentStatus : Nat := 0
def waitingStatus : Nat := 1
def originStatus : Nat := 2

def fileNumberUpperLimit : Nat := 200000

/-! ### Merkle trees -/

def mtLinksNum : Bytes := str "links_num"
def mtLinks : Bytes := str "links"
def mtHash : Bytes := str "hash"
def mtSize : Bytes := str "size"

/-! ### Work reports -/

def workreportFileLimit : Nat := 1000
def eraLength : Nat := 300
def workreportReportInterval : Nat := 10

/-! ### Metadata and upgrade documents -/

def sworkerPrivateTag : Bytes := str "&+CRUSTSWORKERPRIVATE+&"

def idFile : Bytes := str "files"
def idWorkload : Bytes := str "workload"
def idKeyPair : Bytes := str "id_key_pair"
def idPrePubKey : Bytes := str "pre_pub_key"
def idReportHeight : Bytes := str "report_height"
def idChainAccountId : Bytes := str "chain_account_id"

def upgradePublicKey : Bytes := str "pub_key"
def upgradeBlockHeight : Bytes := str "block_height"
def upgradeBlockHash : Bytes := str "block_hash"
def upgradeSrd : Bytes := str "upgrade_srd"
def upgradeSrdRoot : Bytes := str "upgrade_srd_root"
def upgradeFile : Bytes := str "upgrade_file"
def upgradeFileRoot : Bytes := str "upgrade_file_root"
def upgradeSig : Bytes := str "upgrade_sig"

/-! ### Validation -/

def meaningfulValidateMinBlockNum : Nat := 1

end CrustSworker
