import Gem5Nvm.Base

/-!
# Memory commands

`MemCmd` of `mem/packet.hh` with the table `commandInfo` of `mem/packet.cc`: the attributes of each
command and the command of its response.
-/

namespace Gem5Nvm

/-- `MemCmd::Command`. -/
inductive MemCmd
  | invalidCmd
  | readReq
  | readResp
  | readRespWithInvalidate
  | writeReq
  | writeResp
  | writeCompleteResp
  | writebackDirty
  | writebackClean
  | writeClean
  | cleanEvict
  | softPFReq
  | softPFExReq
  | hardPFReq
  | softPFResp
  | hardPFResp
  | writeLineReq
  | upgradeReq
  | scUpgradeReq
  | upgradeResp
  | scUpgradeFailReq
  | upgradeFailResp
  | readExReq
  | readExResp
  | readCleanReq
  | readSharedReq
  | loadLockedReq
  | storeCondReq
  | storeCondFailReq
  | storeCondResp
  | swapReq
  | swapResp
  | memFenceReq
  | memSyncReq
  | memSyncResp
  | memFenceResp
  | cleanSharedReq
  | cleanSharedResp
  | cleanInvalidReq
  | cleanInvalidResp
  | invalidDestError
  | badAddressError
  | functionalReadError
  | functionalWriteError
  | printReq
  | flushReq
  | invalidateReq
  | invalidateResp
  | htmReq
  | htmReqResp
  | htmAbort
  deriving DecidableEq, Repr

namespace MemCmd

inductive Attribute
  | isRead
  | isWrite
  | isUpgrade
  | isInvalidate
  | isClean
  | needsWritable
  | isRequest
  | isResponse
  | needsResponse
  | isEviction
  | isSWPrefetch
  | isHWPrefetch
  | isLlsc
  | hasData
  | isError
  | isPrint
  | isFlush
  | fromCache
  deriving DecidableEq, Repr

/-- The attributes of `commandInfo`. -/
def attributes : MemCmd → List Attribute
  | invalidCmd => []
  | readReq => [.isRead, .isRequest, .needsResponse]
  | readResp => [.isRead, .isResponse, .hasData]
  | readRespWithInvalidate => [.isRead, .isResponse, .hasData, .isInvalidate]
  | writeReq => [.isWrite, .needsWritable, .isRequest, .needsResponse, .hasData]
  | writeResp => [.isWrite, .isResponse]
  | writeCompleteResp => [.isWrite, .isResponse]
  | writebackDirty => [.isWrite, .isRequest, .isEviction, .hasData, .fromCache]
  | writebackClean => [.isWrite, .isRequest, .isEviction, .hasData, .fromCache]
  | writeClean => [.isWrite, .isRequest, .hasData, .fromCache]
  | cleanEvict => [.isRequest, .isEviction, .fromCache]
  | softPFReq => [.isRead, .isRequest, .isSWPrefetch, .needsResponse]
  | softPFExReq =>
    [.isRead, .needsWritable, .isInvalidate, .isRequest, .isSWPrefetch, .needsResponse]
  | hardPFReq => [.isRead, .isRequest, .isHWPrefetch, .needsResponse, .fromCache]
  | softPFResp => [.isRead, .isResponse, .isSWPrefetch, .hasData]
  | hardPFResp => [.isRead, .isResponse, .isHWPrefetch, .hasData]
  | writeLineReq => [.isWrite, .needsWritable, .isRequest, .needsResponse, .hasData]
  | upgradeReq =>
    [.isInvalidate, .needsWritable, .isUpgrade, .isRequest, .needsResponse, .fromCache]
  | scUpgradeReq =>
    [.isInvalidate, .needsWritable, .isUpgrade, .isLlsc, .isRequest, .needsResponse, .fromCache]
  | upgradeResp => [.isUpgrade, .isResponse]
  | scUpgradeFailReq =>
    [.isRead, .needsWritable, .isInvalidate, .isLlsc, .isRequest, .needsResponse, .fromCache]
  | upgradeFailResp => [.isRead, .isResponse, .hasData]
  | readExReq => [.isRead, .needsWritable, .isInvalidate, .isRequest, .needsResponse, .fromCache]
  | readExResp => [.isRead, .isResponse, .hasData]
  | readCleanReq => [.isRead, .isRequest, .needsResponse, .fromCache]
  | readSharedReq => [.isRead, .isRequest, .needsResponse, .fromCache]
  | loadLockedReq => [.isRead, .isLlsc, .isRequest, .needsResponse]
  | storeCondReq => [.isWrite, .needsWritable, .isLlsc, .isRequest, .needsResponse, .hasData]
  | storeCondFailReq => [.isWrite, .needsWritable, .isLlsc, .isRequest, .needsResponse, .hasData]
  | storeCondResp => [.isWrite, .isLlsc, .isResponse]
  | swapReq => [.isRead, .isWrite, .needsWritable, .isRequest, .hasData, .needsResponse]
  | swapResp => [.isRead, .isWrite, .isResponse, .hasData]
  | memFenceReq => [.isRequest, .needsResponse]
  | memSyncReq => [.isRequest, .needsResponse]
  | memSyncResp => [.isResponse]
  | memFenceResp => [.isResponse]
  | cleanSharedReq => [.isRequest, .isClean, .needsResponse, .fromCache]
  | cleanSharedResp => [.isResponse, .isClean]
  | cleanInvalidReq => [.isRequest, .isInvalidate, .isClean, .needsResponse, .fromCache]
  | cleanInvalidResp => [.isResponse, .isInvalidate, .isClean]
  | invalidDestError => [.isResponse, .isError]
  | badAddressError => [.isResponse, .isError]
  | functionalReadError => [.isRead, .isResponse, .isError]
  | functionalWriteError => [.isWrite, .isResponse, .isError]
  | printReq => [.isRequest, .isPrint]
  | flushReq => [.isRequest, .isFlush, .needsWritable]
  | invalidateReq => [.isInvalidate, .isRequest, .needsWritable, .needsResponse, .fromCache]
  | invalidateResp => [.isInvalidate, .isResponse]
  | htmReq => [.isRead, .isRequest, .needsResponse]
  | htmReqResp => [.isRead, .isResponse]
  | htmAbort => [.isRead, .isRequest]

/-- The response of `commandInfo`. -/
def responseCommand : MemCmd → MemCmd
  | readReq => readResp
  | writeReq => writeResp
  | softPFReq => softPFResp
  | softPFExReq => softPFResp
  | hardPFReq => hardPFResp
  | writeLineReq => writeResp
  | upgradeReq => upgradeResp
  | scUpgradeReq => upgradeResp
  | scUpgradeFailReq => upgradeFailResp
  | readExReq => readExResp
  | readCleanReq => readResp
  | readSharedReq => readResp
  | loadLockedReq => readResp
  | storeCondReq => storeCondResp
  | storeCondFailReq => storeCondResp
  | swapReq => swapResp
  | memFenceReq => memFenceResp
  | memSyncReq => memSyncResp
  | cleanSharedReq => cleanSharedResp
  | cleanInvalidReq => cleanInvalidResp
  | invalidateReq => invalidateResp
  | htmReq => htmReqResp
  | _ => invalidCmd

def testCmdAttrib (cmd : MemCmd) (attrib : Attribute) : Bool := cmd.attributes.contains attrib

def isRead (cmd : MemCmd) : Bool := cmd.testCmdAttrib .isRead
def isWrite (cmd : MemCmd) : Bool := cmd.testCmdAttrib .isWrite
def isUpgrade (cmd : MemCmd) : Bool := cmd.testCmdAttrib .isUpgrade
def isRequest (cmd : MemCmd) : Bool := cmd.testCmdAttrib .isRequest
def isResponse (cmd : MemCmd) : Bool := cmd.testCmdAttrib .isResponse
def needsWritable (cmd : MemCmd) : Bool := cmd.testCmdAttrib .needsWritable
def needsResponse (cmd : MemCmd) : Bool := cmd.testCmdAttrib .needsResponse
def isInvalidate (cmd : MemCmd) : Bool := cmd.testCmdAttrib .isInvalidate
def isEviction (cmd : MemCmd) : Bool := cmd.testCmdAttrib .isEviction
def isClean (cmd : MemCmd) : Bool := cmd.testCmdAttrib .isClean
def fromCache (cmd : MemCmd) : Bool := cmd.testCmdAttrib .fromCache
def hasData (cmd : MemCmd) : Bool := cmd.testCmdAttrib .hasData
def isLLSC (cmd : MemCmd) : Bool := cmd.testCmdAttrib .isLlsc
def isWriteback (cmd : MemCmd) : Bool := cmd.isEviction && cmd.hasData

end MemCmd

/-- The flags of a `Request` that the caches read. -/
structure RequestFlags where
  uncacheable : Bool := false
  strictOrder : Bool := false
  privileged : Bool := false
  llsc : Bool := false
  memSwap : Bool := false
  memSwapCond : Bool := false
  secure : Bool := false
  clean : Bool := false
  invalidate : Bool := false
  deriving DecidableEq, Repr

namespace RequestFlags

def isCacheInvalidate (flags : RequestFlags) : Bool := flags.invalidate

def isCacheMaintenance (flags : RequestFlags) : Bool := flags.clean || flags.invalidate

end RequestFlags

end Gem5Nvm
